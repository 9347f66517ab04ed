import KStep.WindowSeats

/-!
# The runs of the machine among the finer ones

A control read of the machine that takes nothing is the take and the check, one right after the
other. So whatever a controller and its CPUs do in the machine they do with reads in two halves, and
what holds in every state of the finer runs holds in every state of the machine's.
-/

namespace KStep

open RingQueue Runs

/-- A session outside every window. -/
def Session.fine (s : Session) : Fine := ⟨s, fun _ => false⟩

theorem cpuStep_isTestCpu {m m' : Machine} {c : ℕ} {a : Act} (h : cpuStep m c a = some m') :
    m.isTestCpu c = true := by
  by_contra hc
  unfold cpuStep at h
  rw [if_neg hc] at h
  cases h

/-- A read that takes nothing, in its two halves. -/
theorem cpuEnv_fine_read {s s' : Session} {c p : ℕ} {k : Pick}
    (hnothing : Act.takesNothing s.machine (.read p k) = true)
    (h : cpuEnv s (c, .read p k) = some s') :
    run fineEnv s.fine [(c, .act (.read p k)), (c, .check p)] = some s'.fine := by
  have hfirst : fineEnv s.fine (c, .act (.read p k)) = some ⟨s, fun q => p == q⟩ := by
    simp [fineEnv, h, Session.fine, Act.actor, Fine.advance, hnothing, Act.reads]
  obtain ⟨hpanic, m', hstep, rfl⟩ := cpuEnv_step h
  obtain ⟨_, _, heq, hcurr, hplace⟩ := takesNothing_cases hnothing hstep
  cases heq
  have hm' : m' = s.machine.checkHalt c p := by
    rcases cpuStep_inv hstep with ⟨q, b, heq, -⟩ | ⟨k', heq, -⟩ | ⟨q, hq, -, htask⟩
    · cases heq
    · cases heq
    · obtain rfl : p = q := Option.some.inj (hcurr.symm.trans hq)
      simp only [taskStep, hplace, checkHalt_eq_ctrlRead (Option.isNone_iff_eq_none.mp hnothing),
        Option.some.injEq] at htask
      exact htask.symm
  have htaken : Function.update (fun q => p == q) p false = fun _ => false := by
    funext q
    by_cases hq : q = p
    · rw [hq, Function.update_self]
    · rw [Function.update_of_ne hq]
      exact beq_eq_false_iff_ne.mpr (Ne.symm hq)
  have hcheck : (!s.panicked && s.machine.isTestCpu c &&
      (s.machine.curr c == some p && p == p)) = true := by
    simp [hpanic, cpuStep_isTestCpu hstep, hcurr]
  have hsecond : fineEnv ⟨s, fun q => p == q⟩ (c, .check p) =
      some (Session.fine { s with machine := m' }) := by
    refine (if_pos hcheck).trans ?_
    simp only [htaken, hm', Session.fine]
  simp only [run, hfirst, hsecond]

theorem cpuEnv_fine {s s' : Session} {c : ℕ} {a : Act} (h : cpuEnv s (c, a) = some s') :
    ∃ l, run fineEnv s.fine l = some s'.fine := by
  by_cases hnothing : a.takesNothing s.machine = true
  · cases a with
    | read p k => exact ⟨_, cpuEnv_fine_read hnothing h⟩
    | _ => cases hnothing
  · have hblocked : a.actor.any (fun _ => false) = false := by
      cases a.actor <;> rfl
    have hstep : fineEnv s.fine (c, .act a) = some s'.fine := by
      simp only [fineEnv, Session.fine, hblocked, Bool.false_eq_true, if_false, h, Option.map_some,
        Fine.advance, if_neg hnothing]
    exact ⟨[(c, .act a)], by simp only [run, hstep]⟩

/-- Every run of the machine is a run of its finer version. -/
theorem ctlRun_fine {s s' : Session × List Op} {l : List CtlLabel}
    (h : run ctlStep s l = some s') :
    ∃ l', run fineStep (s.1.fine, s.2) l' = some (s'.1.fine, s'.2) := by
  induction l generalizing s with
  | nil =>
      cases h
      exact ⟨[], rfl⟩
  | cons e l ih =>
      obtain ⟨u, hu, hrun⟩ := run_cons h
      obtain ⟨l', hl'⟩ := ih hrun
      have hstep : ∃ first, run fineStep (s.1.fine, s.2) first = some (u.1.fine, u.2) := by
        obtain ⟨s₁, prog⟩ := s
        obtain ⟨u₁, prog'⟩ := u
        rcases interleave_cases hu with ⟨o, x, rfl, rfl, hop⟩ | ⟨⟨c, a⟩, rfl, rfl, henv⟩
        · refine ⟨[.op o x], ?_⟩
          simp [run, fineStep, interleave, fineOp, Session.fine, hop]
        · obtain ⟨first, hfirst⟩ := cpuEnv_fine henv
          exact ⟨_, interleave_run_env prog' hfirst⟩
      obtain ⟨first, hfirst⟩ := hstep
      exact ⟨first ++ l', (run_append hfirst).trans hl'⟩

end KStep
