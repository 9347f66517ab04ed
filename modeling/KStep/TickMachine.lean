import KStep.Coherence
import KStep.TickOrder

/-!
# A tick of the machine follows the abstract tick

When only the ticks disturb the CPUs, a run of the controller's tick among the steps of the test
CPUs is a run of the abstract tick, with the reschedules pending on the machine as those pending
there. So its handlers and switches come in the order shown for the abstract one.
-/

namespace KStep

open Runs

/-- Steps of a tick that asks the CPUs in `asks` to reschedule and wakes and moves nothing. -/
def Plain (asks : ℕ → Bool) : CtlLabel → Prop
  | .op (.call c) x => x.moves = [] ∧ x.resched = asks c
  | .op _ _ => True
  | .env (_, a) => a.wake = none ∧ ∀ q b, a ≠ .ttwu q b

def observed (m m' : Machine) : CtlLabel → List TickOp
  | .op (.call c) _ => [.tick c]
  | .op _ _ => []
  | .env (c, _) => if m.needResched c && !m'.needResched c then [.resched c] else []

def workOrder : Session × List Op → List CtlLabel → List TickOp
  | _, [] => []
  | s, e :: l => match ctlStep s e with
    | none => []
    | some s' => observed s.1.machine s'.1.machine e ++ workOrder s' l

variable {m m' : Machine} {a : Act} {c : ℕ} {asks : ℕ → Bool}

theorem Machine.interrupt_needResched : (m.interrupt c).needResched = m.needResched := by
  rcases m.interrupt_cases c with h | ⟨p, -, -, h⟩
  · rw [h]
  · rw [h, setTask_needResched]

theorem Machine.pick_needResched {k : Pick} (h : m.pick c k = some m') :
    m'.needResched = Function.update m.needResched c false := by
  rcases pick_cases h with ⟨-, rfl⟩ | ⟨q, d, -, -, rfl⟩
  · rfl
  · rfl

theorem cpuStep_needResched (hm : m.Coherent) (hwake : a.wake = none)
    (httwu : ∀ q b, a ≠ .ttwu q b) (h : cpuStep m c a = some m') :
    m'.needResched = m.needResched ∨ m'.needResched = Function.update m.needResched c false := by
  cases cpuStep_move hm h with
  | stay hcurr hmoved hloc hawake => exact Or.inl rfl
  | away hcurr hmoved hloc hpick =>
      exact Or.inr (by rw [Machine.pick_needResched hpick, Machine.setTask_needResched])
  | rouse hcurr hmoved hloc hawake hlabel hreader hwake' =>
      exact absurd (hwake.symm.trans hlabel) (by simp)
  | idle hcurr hread hresched hpick => exact Or.inr (Machine.pick_needResched hpick)
  | ttwu hlt hlabel hloc => exact absurd hlabel (httwu _ _)

theorem schedTick_needResched {x : Choice} (hx : x.moves = []) (h : m.schedTick c x = some m') :
    m'.needResched = Function.update m.needResched c (m.needResched c || x.resched) := by
  obtain ⟨n, hfold, rfl⟩ := Option.map_eq_some_iff.mp h
  rw [hx] at hfold
  cases hfold
  rw [Machine.interrupt_needResched]
  split_ifs with hresched
  · simp [hresched, Machine.setResched]
  · simp [hresched]

def InTick (prog : List Op) : Prop := ∀ o ∈ prog, (∃ c, o = .call c) ∨ ∃ c, o = .poll c

theorem inTick_kstepTick (k : ℕ) : InTick (kstepTick k) := by
  intro o ho
  simp only [kstepTick, kstepSettle, List.mem_append, List.mem_map] at ho
  rcases ho with (⟨c, -, rfl⟩ | ⟨c, -, rfl⟩) | ⟨c, -, rfl⟩
  · exact Or.inr ⟨c, rfl⟩
  · exact Or.inl ⟨c, rfl⟩
  · exact Or.inr ⟨c, rfl⟩

variable {σ : Type} {w : SchedWork σ} {u : TickState σ} {s s' : Session} {prog prog' : List Op}
  {e : CtlLabel}

/-- One step of the machine's tick is at most one step of the abstract one. -/
theorem ctlStep_simulated (hm : s.machine.Coherent) (hprog : InTick prog) (hplain : Plain asks e)
    (h : ctlStep (s, prog) e = some (s', prog')) (hu : u.pending = s.machine.needResched) :
    ∃ l u', run (tickStep w asks) (u, prog) l = some (u', prog') ∧
      u'.pending = s'.machine.needResched ∧
      u'.trace = u.trace ++ observed s.machine s'.machine e := by
  rcases interleave_cases h with ⟨o, x, rfl, rfl, hop⟩ | ⟨⟨c, a⟩, rfl, rfl, henv⟩
  · rcases hprog o List.mem_cons_self with ⟨c, rfl⟩ | ⟨c, rfl⟩
    · cases (execOp_move hop).2 with
      | call htick =>
          refine ⟨[.op (.call c) ()], _, by simp [run, tickStep, interleave, tickOp]; rfl, ?_, rfl⟩
          rw [schedTick_needResched hplain.1 htick, hplain.2]
          simp [TickState.perform, hu]
    · cases (execOp_move hop).2 with
      | poll hsettled =>
          have hnone : u.pending c = false := by
            rw [hu]
            exact (kstepCpuSettled_iff.mp hsettled).2.1
          exact ⟨[.op (.poll c) ()], u, by simp [run, tickStep, interleave, tickOp, hnone], hu,
            by simp [observed]⟩
  · obtain ⟨-, m', hstep, rfl⟩ := cpuEnv_step henv
    rcases cpuStep_needResched hm hplain.1 hplain.2 hstep with hsame | hclear
    · exact ⟨[], u, rfl, hu.trans hsame.symm, by simp [observed, hsame]⟩
    · by_cases hpending : s.machine.needResched c = true
      · refine ⟨[.env c], u.perform w (.resched c) (Function.update u.pending c false), ?_, ?_, ?_⟩
        · simp [run, tickStep, interleave, tickEnv, hu, hpending]
        · rw [hclear, ← hu]
          rfl
        · simp [TickState.perform, observed, hpending, hclear]
      · have hsame : Function.update s.machine.needResched c false = s.machine.needResched :=
          Function.update_eq_self_iff.mpr (by simpa using hpending)
        exact ⟨[], u, rfl, hu.trans (hclear.trans hsame).symm, by simp [observed, hpending]⟩

theorem ctlRun_simulated {l : List CtlLabel} (hm : s.machine.Coherent) (hprog : InTick prog)
    (hplain : ∀ e ∈ l, Plain asks e) (h : run ctlStep (s, prog) l = some (s', prog'))
    (hu : u.pending = s.machine.needResched) :
    ∃ l' u', run (tickStep w asks) (u, prog) l' = some (u', prog') ∧
      u'.trace = u.trace ++ workOrder (s, prog) l := by
  induction l generalizing s prog u with
  | nil =>
      cases h
      exact ⟨[], u, rfl, by simp [workOrder]⟩
  | cons e l ih =>
      obtain ⟨⟨s₁, prog₁⟩, hstep, hrun⟩ := run_cons h
      obtain ⟨l₁, u₁, hrun₁, hu₁, htrace₁⟩ := ctlStep_simulated (w := w) hm hprog
        (hplain e List.mem_cons_self) hstep hu
      have hprog₁ : InTick prog₁ := by
        rcases interleave_cases hstep with ⟨o, x, -, rfl, -⟩ | ⟨-, -, rfl, -⟩
        · exact fun o ho => hprog o (List.mem_cons_of_mem _ ho)
        · exact hprog
      obtain ⟨l₂, u₂, hrun₂, htrace₂⟩ := ih (ctlStep_coherent hstep hm) hprog₁
        (fun e he => hplain e (List.mem_cons_of_mem _ he)) hrun hu₁
      refine ⟨l₁ ++ l₂, u₂, (run_append hrun₁).trans hrun₂, ?_⟩
      rw [htrace₂, htrace₁, List.append_assoc]
      simp only [workOrder, hstep]

/-- When no test CPU but the last is asked to reschedule, the handlers and switches of every such
tick of the machine come in one order. -/
theorem machine_tick_order {k : ℕ} {l : List CtlLabel} (hm : s.machine.Coherent)
    (hnone : ∀ c, s.machine.needResched c = false) (hplain : ∀ e ∈ l, Plain asks e)
    (hasks : ∀ c, 1 ≤ c → c < k → asks c = false)
    (h : run ctlStep (s, kstepTick k) l = some (s', [])) :
    workOrder (s, kstepTick k) l = tickOrder asks k := by
  obtain ⟨l', u, hrun, htrace⟩ := ctlRun_simulated (u := TickState.start ())
    (w := ⟨fun _ => id, fun _ => id⟩) hm (inTick_kstepTick k) hplain h
    (funext fun c => (hnone c).symm)
  rw [← ticks_trace hasks ⟨l', hrun⟩, htrace]
  rfl

end KStep
