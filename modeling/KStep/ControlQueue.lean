import KStep.Coherence

/-!
# What is outstanding in a control queue

The controller's `put` adds one action to a task's queue and the task's own read takes one, if
there is any. Nothing else touches a queue.
-/

namespace KStep

open RingQueue Runs

def Machine.outstanding (m : Machine) (p : ℕ) : ℕ := (m.tasks p).ring.outstanding

def Act.reads : Act → ℕ → Bool
  | .read p _, q => p == q
  | _, _ => false

namespace Machine

variable {m m' : Machine} {c p : ℕ} {t : Task} {k : Pick}

structure SameQueues (m m' : Machine) : Prop where
  ntasks : m'.ntasks = m.ntasks
  ring : ∀ q, (m'.tasks q).ring = (m.tasks q).ring

namespace SameQueues

theorem refl (m : Machine) : SameQueues m m := ⟨rfl, fun _ => rfl⟩

theorem trans {m'' : Machine} (h : SameQueues m m') (h' : SameQueues m' m'') :
    SameQueues m m'' :=
  ⟨h'.ntasks.trans h.ntasks, fun q => (h'.ring q).trans (h.ring q)⟩

theorem setTask (h : t.ring = (m.tasks p).ring) : SameQueues m (m.setTask p t) := by
  refine ⟨rfl, fun q => ?_⟩
  by_cases hq : q = p
  · rw [hq, setTask_tasks_self, h]
  · rw [setTask_tasks_ne m p q t hq]

theorem setResched {b : Bool} : SameQueues m (m.setResched c b) := ⟨rfl, fun _ => rfl⟩

theorem setCurr {o : Option ℕ} : SameQueues m (m.setCurr c o) := ⟨rfl, fun _ => rfl⟩

theorem interrupt : SameQueues m (m.interrupt c) := by
  rcases m.interrupt_cases c with h | ⟨p, -, -, h⟩
  · rw [h]
    exact refl m
  · rw [h]
    exact setTask (by rfl)

theorem enqueue {b : Bool} : SameQueues m (m.enqueue p c b) := by
  have hset : SameQueues m (m.setTask p { m.tasks p with loc := .queued c }) := setTask rfl
  rcases m.enqueue_cases p c b with ⟨h, -⟩ | h
  · rw [h]
    exact hset
  · rw [h]
    exact (hset.trans setResched).trans interrupt

theorem wake {w : Wake} (h : m.wake w = some m') : SameQueues m m' := by
  obtain ⟨s, place, -, -, -, hcase⟩ := wake_cases h
  rcases hcase with ⟨-, rfl⟩ | ⟨-, rfl⟩
  · exact setTask (by rfl)
  · exact (setTask (by rfl)).trans enqueue

theorem pick (h : m.pick c k = some m') : SameQueues m m' := by
  rcases pick_cases h with ⟨-, rfl⟩ | ⟨q, d, -, -, rfl⟩
  · exact setCurr.trans setResched
  · exact ((setTask (by rfl)).trans setCurr).trans setResched

theorem schedTick {x : Choice} (h : m.schedTick c x = some m') : SameQueues m m' := by
  obtain ⟨n, hfold, rfl⟩ := Option.map_eq_some_iff.mp h
  rw [foldlM_eq_run] at hfold
  have hmoved : SameQueues m n := by
    refine run_invariant (I := SameQueues m) ?_ hfold ?_
    · rintro n w n' hstep hn
      obtain ⟨-, rfl⟩ := migrate_cases hstep
      exact hn.trans enqueue
    · split_ifs
      · exact setResched
      · exact refl m
  exact hmoved.trans interrupt

theorem sendSig {x : Choice} (h : m.sendSig p x = some m') : SameQueues m m' := by
  have hset : SameQueues m (m.setTask p { m.tasks p with sig := true }) := setTask rfl
  simp only [Machine.sendSig] at h
  split at h
  · split_ifs at h
    exact hset.trans (wake h)
  · cases h
    exact hset.trans interrupt
  · cases h
    exact hset

theorem letOut : SameQueues m (m.letOut p) := by
  unfold Machine.letOut
  split
  · exact interrupt
  · exact refl m

end SameQueues

end Machine

variable {m m' : Machine} {a : Act} {c p : ℕ} {t : Task}

theorem cpuStep_read {k : Pick} (h : cpuStep m c (.read p k) = some m') : m.curr c = some p := by
  simp only [cpuStep, Act.actor] at h
  split_ifs at h
  split at h
  · rename_i q q' hcurr hactor
    split_ifs at h with hq
    cases hactor
    rw [hcurr, hq]
  · cases h

theorem reads_iff_isRead (h : cpuStep m c a = some m') (hcurr : m.curr c = some p) (q : ℕ) :
    a.reads q = true ↔ q = p ∧ a.isRead = true := by
  rcases a with _ | _ | _ | _ | ⟨p', k⟩ | _ | _ | _ | _ <;>
    simp only [Act.reads, Act.isRead, Bool.false_eq_true, and_false, and_true]
  have hp : p' = p := Option.some.inj ((cpuStep_read h).symm.trans hcurr)
  rw [hp, beq_iff_eq]
  exact eq_comm

/-- A step takes from the queue of the task whose read it is, and from no other. -/
theorem cpuStep_outstanding (hm : m.Coherent) (h : cpuStep m c a = some m') (q : ℕ) :
    m'.ntasks = m.ntasks ∧
      m'.outstanding q = if a.reads q then m.outstanding q - 1 else m.outstanding q := by
  have hmoved {p : ℕ} {t : Task} (hcurr : m.curr c = some p) (hmoved : Moved a (m.tasks p) t) :
      ((m.setTask p t).tasks q).ring.outstanding =
        if a.reads q then m.outstanding q - 1 else m.outstanding q := by
    have hreads := reads_iff_isRead h hcurr q
    unfold Machine.outstanding
    by_cases hq : q = p
    · rw [hq] at hreads ⊢
      rw [Machine.setTask_tasks_self, hmoved.ring]
      simp only [hreads, true_and]
      split_ifs
      · exact Buffer.outstanding_drop
      · rfl
    · rw [m.setTask_tasks_ne p q t hq]
      simp only [hreads, hq, false_and, if_false]
  have hsame {n : Machine} (hn : Machine.SameQueues n m') :
      m'.ntasks = n.ntasks ∧ m'.outstanding q = (n.tasks q).ring.outstanding :=
    ⟨hn.ntasks, congrArg Buffer.outstanding (hn.ring q)⟩
  cases cpuStep_move hm h with
  | stay hcurr hm' hloc hawake => exact ⟨rfl, hmoved hcurr hm'⟩
  | away hcurr hm' hloc hpick =>
      have hp := hsame (Machine.SameQueues.pick hpick)
      exact ⟨hp.1, hp.2.trans (hmoved hcurr hm')⟩
  | rouse hcurr hm' hloc hawake hlabel hreader hwake =>
      have hw := hsame (Machine.SameQueues.wake hwake)
      exact ⟨hw.1, hw.2.trans (hmoved hcurr hm')⟩
  | idle hcurr hread hresched hpick =>
      have hnot : a.reads q = false := by
        rcases a with _ | _ | _ | _ | _ | _ | _ | _ | _ <;> simp_all [Act.isRead, Act.reads]
      rw [hnot]
      exact hsame (Machine.SameQueues.pick hpick)
  | @ttwu p b hlt hlabel hloc =>
      rw [hlabel]
      exact hsame (Machine.SameQueues.enqueue.trans Machine.SameQueues.interrupt)

theorem parkedTask_outstanding : parkedTask.ring.outstanding = 0 := by decide

def Op.puts : Op → ℕ → Bool
  | .put p _, q => p == q
  | _, _ => false

variable {s s' : Session} {o : Op} {x : Choice}

/-- Only a put on a full queue panics. -/
theorem execOp_panicked (hs : s.panicked = false) (h : execOp s o x = some s')
    (hpanic : s'.panicked = true) :
    ∃ p, o.puts p = true ∧ kstepCtrlQueue ≤ s.machine.outstanding p := by
  cases (execOp_move h).2 with
  | @overrun p a hfull => exact ⟨p, beq_self_eq_true p, Buffer.put_eq_none_iff.mp hfull⟩
  | _ => cases hs.symm.trans hpanic

/-- An operation that does not panic puts at most one action, in a queue with room for it. -/
theorem execOp_outstanding (h : execOp s o x = some s') (hpanic : s'.panicked = false)
    (hfresh : s.machine.outstanding s.machine.ntasks = 0) (q : ℕ) :
    s.machine.ntasks ≤ s'.machine.ntasks ∧
      s'.machine.outstanding q = s.machine.outstanding q + (if o.puts q then 1 else 0) ∧
      (o.puts q = true → s.machine.outstanding q < kstepCtrlQueue) := by
  have hsame {m' : Machine} (hm' : Machine.SameQueues s.machine m') (hputs : o.puts q = false) :
      s.machine.ntasks ≤ m'.ntasks ∧
        m'.outstanding q = s.machine.outstanding q + (if o.puts q then 1 else 0) ∧
        (o.puts q = true → s.machine.outstanding q < kstepCtrlQueue) := by
    refine ⟨hm'.ntasks.ge, ?_, by simp [hputs]⟩
    simp [Machine.outstanding, hm'.ring, hputs]
  cases (execOp_move h).2 with
  | overrun hfull => cases hpanic
  | @put p a ring hput =>
      refine ⟨le_rfl, ?_⟩
      unfold Machine.outstanding
      by_cases hq : q = p
      · subst hq
        have hroom : ¬ kstepCtrlQueue ≤ (s.machine.tasks q).ring.outstanding := by
          rw [← Buffer.put_eq_none_iff (a := a), hput]
          simp
        rw [Machine.setTask_tasks_self, Buffer.outstanding_put (by decide) hput]
        exact ⟨by simp [Op.puts], fun _ => not_le.mp hroom⟩
      · rw [Machine.setTask_tasks_ne _ _ _ _ hq]
        simp [Op.puts, Ne.symm hq]
  | letOut => exact hsame Machine.SameQueues.letOut rfl
  | signal hsig => exact hsame (Machine.SameQueues.sendSig hsig) rfl
  | call htick => exact hsame (Machine.SameQueues.schedTick htick) rfl
  | poll hsettled => exact hsame (Machine.SameQueues.refl _) rfl
  | create hroom =>
      refine ⟨Nat.le_succ _, ?_⟩
      unfold Machine.outstanding at hfresh ⊢
      by_cases hq : q = s.machine.ntasks
      · subst hq
        simp [Op.puts, Machine.create, Machine.setTask_tasks_self, hfresh, parkedTask_outstanding]
      · simp [Op.puts, Machine.create, Machine.setTask_tasks_ne _ _ _ _ hq]

end KStep
