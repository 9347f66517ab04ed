import KStep.CliSession

/-!
# A task that `create` refuses

`create n /path` moves every new task into the cgroup before it wakes it. When the move fails, the
task is asked to exit: the action is put in its queue, and the call that would let it out of its
halt is not made, since it is asleep in its park. No step of a CPU wakes a parked task, so the
action is still waiting when the command is over.
-/

namespace KStep

open RingQueue Runs

/-- The loop of `cmd_create`, given for each task whether it can be moved into the cgroup; `p` is
the next task. -/
def createLoop (k : ℕ) : ℕ → List Bool → List Op
  | _, [] => []
  | p, moved :: rest => .create ::
      if moved then kstepTaskWakeup k p ++ createLoop k (p + 1) rest else kstepTaskCtrl k p .exit

/-- A `create` whose first `j` tasks are moved and whose next one is refused, and the settle of
`run` after it. -/
def refusedCreate (k p j : ℕ) : List Op :=
  createLoop k p (List.replicate j true ++ [false]) ++ kstepSettle k

namespace Machine

variable {m m' : Machine} {c p q : ℕ} {s : Sleep} {k : Pick}

theorem interrupt_asleep (hp : (m.tasks p).place = .asleep s) :
    (m.interrupt c).tasks p = m.tasks p := by
  rcases m.interrupt_cases c with h | ⟨q, -, hq, h⟩
  · rw [h]
  · rw [h, setTask_tasks_ne]
    rintro rfl
    exact absurd (hp.symm.trans hq) (by simp)

theorem enqueue_asleep {b : Bool} (hne : p ≠ q) (hp : (m.tasks p).place = .asleep s) :
    (m.enqueue q c b).tasks p = m.tasks p := by
  have hset : (m.setTask q { m.tasks q with loc := .queued c }).tasks p = m.tasks p :=
    setTask_tasks_ne _ _ _ _ hne
  rcases m.enqueue_cases q c b with ⟨h, -⟩ | h
  · rw [h, hset]
  · rw [h, interrupt_asleep (s := s)]
    · exact hset
    · rw [setResched_tasks, hset, hp]

theorem pick_asleep (hoff : (m.tasks p).loc = .off) (h : m.pick c k = some m') :
    m'.tasks p = m.tasks p := by
  rcases pick_cases h with ⟨-, rfl⟩ | ⟨q, d, -, hloc, rfl⟩
  · rfl
  · rw [setResched_tasks, setCurr_tasks, setTask_tasks_ne]
    rintro rfl
    exact absurd (hoff.symm.trans hloc) (by simp)

theorem wake_asleep {w : Wake} (hne : p ≠ w.task) (hp : (m.tasks p).place = .asleep s)
    (h : m.wake w = some m') : m'.tasks p = m.tasks p := by
  obtain ⟨s', place, -, -, -, hcase⟩ := wake_cases h
  rcases hcase with ⟨-, rfl⟩ | ⟨-, rfl⟩
  · exact setTask_tasks_ne _ _ _ _ hne
  · have hset := setTask_tasks_ne m w.task p { m.tasks w.task with place := place } hne
    rw [enqueue_asleep hne (s := s)]
    · exact hset
    · rw [hset, hp]

end Machine

variable {m m' : Machine} {a : Act} {c p : ℕ} {sl : Sleep}

/-- No step of a CPU touches a task that is asleep outside the channel. -/
theorem cpuStep_asleep (hm : m.Coherent) (hp : (m.tasks p).place = .asleep sl)
    (hsl : sl ≠ .chanRead) (h : cpuStep m c a = some m') : m'.tasks p = m.tasks p := by
  have hoff := (hm.sound p).asleep_off sl hp
  have hne {q : ℕ} (hq : m.curr c = some q) : p ≠ q := by
    rintro rfl
    exact hm.curr_ne (by simp [hoff]) hq
  cases cpuStep_move hm h with
  | stay hcurr hmoved hloc hawake => exact m.setTask_tasks_ne _ _ _ (hne hcurr)
  | @away q t _ _ hcurr hmoved hloc hpick =>
      have hset := m.setTask_tasks_ne q p t (hne hcurr)
      exact (Machine.pick_asleep (hset ▸ hoff) hpick).trans hset
  | @rouse q t n w _ hcurr hmoved hloc hawake hlabel hreader hwake =>
      have hset := m.setTask_tasks_ne q p t (hne hcurr)
      have hw : p ≠ w.task := by
        rintro rfl
        rw [hset, hp] at hreader
        exact hsl (Place.asleep.inj hreader)
      exact (Machine.wake_asleep hw (hset ▸ hp) hwake).trans hset
  | idle hcurr hread hresched hpick => exact Machine.pick_asleep hoff hpick
  | @ttwu q b hlt hlabel hloc =>
      have hq : p ≠ q := by
        rintro rfl
        exact absurd (hoff.symm.trans hloc) (by simp)
      have hset := Machine.enqueue_asleep (c := c) (b := b) hq hp
      rw [Machine.interrupt_asleep (hset ▸ hp), hset]

theorem execOp_ntasks {s s' : Session} {o : Op} {x : Choice} (h : execOp s o x = some s') :
    s'.machine.ntasks = s.machine.ntasks + if o = .create then 1 else 0 := by
  cases (execOp_move h).2 with
  | letOut => exact Machine.SameQueues.letOut.ntasks
  | signal hsig => exact (Machine.SameQueues.sendSig hsig).ntasks
  | call htick => exact (Machine.SameQueues.schedTick htick).ntasks
  | _ => rfl

/-- What is still to be created does not change with the steps of a run. -/
theorem ctlStep_creates {s s' : Session} {prog prog' : List Op} {e : CtlLabel}
    (hs : s.machine.Coherent) (h : ctlStep (s, prog) e = some (s', prog')) :
    s'.machine.ntasks + prog'.count .create = s.machine.ntasks + prog.count .create := by
  rcases interleave_cases h with ⟨o, x, -, rfl, hop⟩ | ⟨⟨c, a⟩, -, rfl, henv⟩
  · rw [execOp_ntasks hop, List.count_cons]
    simp only [beq_iff_eq]
    omega
  · obtain ⟨-, m', hstep, rfl⟩ := cpuEnv_step henv
    rw [(cpuStep_outstanding hs hstep 0).1]

theorem createLoop_refused (k p j : ℕ) : ∃ served,
    createLoop k p (List.replicate j true ++ [false]) =
      served ++ (.create :: kstepTaskCtrl k (p + j) .exit) ∧ served.count .create = j := by
  induction j generalizing p with
  | zero => exact ⟨[], rfl, rfl⟩
  | succ j ih =>
      obtain ⟨served, hserved, hcount⟩ := ih (p + 1)
      refine ⟨.create :: (kstepTaskWakeup k p ++ served), ?_, ?_⟩
      · rw [List.replicate_succ, List.cons_append, createLoop, if_pos rfl, hserved,
          Nat.add_right_comm p 1 j]
        simp only [List.cons_append, List.append_assoc]
        rfl
      · have hsettle : (kstepSettle k).count .create = 0 := by
          refine List.count_eq_zero.mpr fun hmem => ?_
          obtain ⟨c, -, hc⟩ := List.mem_map.mp hmem
          cases hc
        simp only [kstepTaskWakeup, List.count_cons, List.cons_append, List.count_append, hsettle,
          hcount]
        simp

/-- Task `p` is asleep in the park of its first read, with `queue` in its control queue. -/
def Parked (m : Machine) (p : ℕ) (queue : List Ctrl) : Prop :=
  (m.tasks p).place = .asleep .park ∧ (m.tasks p).ring.contents kstepCtrlQueue = queue

def Op.waits : Op → Bool
  | .letOut _ | .poll _ => true
  | _ => false

/-- How far the refusal of task `p` has got: it is to be created, to be asked, or asked. -/
inductive Refusing (k p : ℕ) (m : Machine) : List Op → Prop
  | create (hp : m.ntasks = p) :
      Refusing k p m (.create :: (kstepTaskCtrl k p .exit ++ kstepSettle k))
  | ask (hp : Parked m p []) : Refusing k p m (kstepTaskCtrl k p .exit ++ kstepSettle k)
  | asked {prog : List Op} (hwaits : ∀ o ∈ prog, o.waits = true) (hp : Parked m p [.exit]) :
      Refusing k p m prog

theorem settle_waits {k : ℕ} {o : Op} (h : o ∈ kstepSettle k) : o.waits = true := by
  obtain ⟨c, -, rfl⟩ := List.mem_map.mp h
  rfl

variable {s s' : Session} {k : ℕ} {prog prog' : List Op}

theorem execOp_waits {o : Op} {x : Choice} {queue : List Ctrl} (ho : o.waits = true)
    (hp : Parked s.machine p queue) (h : execOp s o x = some s') : Parked s'.machine p queue := by
  cases (execOp_move h).2 with
  | letOut =>
      simp only [Machine.letOut]
      split
      · rw [Parked, Machine.interrupt_asleep hp.1]
        exact hp
      · exact hp
  | poll hsettled => exact hp
  | _ => cases ho

/-- A step of a run takes the refusal on or leaves it where it is. -/
theorem refusing_step {e : CtlLabel} (hs : s.machine.Coherent)
    (h : ctlStep (s, prog) e = some (s', prog')) (hr : Refusing k p s.machine prog) :
    Refusing k p s'.machine prog' := by
  rcases interleave_cases h with ⟨o, x, -, rfl, hop⟩ | ⟨⟨c, a⟩, -, rfl, henv⟩
  · cases hr with
    | create hp =>
        obtain rfl : s' = { s with machine := s.machine.create } := by
          cases (execOp_move hop).2
          rfl
        refine Refusing.ask ?_
        rw [← hp, Parked, Machine.create]
        simp only [Machine.setTask_tasks_self]
        exact ⟨rfl, rfl⟩
    | ask hp =>
        cases (execOp_move hop).2 with
        | overrun hfull =>
            have hlen : ((s.machine.tasks p).ring.contents kstepCtrlQueue).length = _ :=
              Buffer.length_contents
            rw [Buffer.put_eq_none_iff, ← hlen, hp.2] at hfull
            exact absurd hfull (by decide)
        | put hput =>
            refine Refusing.asked ?_ ?_
            · rintro o ho
              rcases List.mem_cons.mp ho with rfl | ho
              · rfl
              · rcases List.mem_append.mp ho with ho | ho <;> exact settle_waits ho
            · have hcontents := Buffer.contents_put (by decide) (by decide) hput
              rw [hp.2, List.nil_append] at hcontents
              simp only [Parked, Machine.setTask_tasks_self]
              exact ⟨hp.1, hcontents⟩
    | asked hwaits hp =>
        exact Refusing.asked (fun o ho => hwaits o (List.mem_cons_of_mem _ ho))
          (execOp_waits (hwaits _ List.mem_cons_self) hp hop)
  · obtain ⟨-, m', hstep, rfl⟩ := cpuEnv_step henv
    have hkept {queue : List Ctrl} (hp : Parked s.machine p queue) : Parked m' p queue := by
      rw [Parked, cpuStep_asleep hs hp.1 (by decide) hstep]
      exact hp
    cases hr with
    | create hp => exact Refusing.create ((cpuStep_outstanding hs hstep 0).1.trans hp)
    | ask hp => exact Refusing.ask (hkept hp)
    | asked hwaits hp => exact Refusing.asked hwaits (hkept hp)

/-- Whichever task of a `create` is refused, and however the CPUs run in the meantime, when the
command and its settles are over the task is still asleep in its park with `EXIT` in its queue. -/
theorem refused_task_stays_parked (s t : Session) (j : ℕ) (l : List CtlLabel)
    (hs : s.machine.Coherent)
    (h : run ctlStep (s, refusedCreate s.machine.ncpus s.machine.ntasks j) l = some (t, [])) :
    Parked t.machine (s.machine.ntasks + j) [.exit] := by
  obtain ⟨served, hserved, hcount⟩ := createLoop_refused s.machine.ncpus s.machine.ntasks j
  rw [refusedCreate, hserved, List.append_assoc] at h
  obtain ⟨u, l₁, l₂, rfl, hfirst, hlast⟩ := interleave_append h
  have hbegin : u.machine.Coherent ∧
      u.machine.ntasks + 0 = s.machine.ntasks + served.count .create := by
    refine run_invariant (s := (s, served)) (t := (u, []))
      (I := fun c => c.1.machine.Coherent ∧
        c.1.machine.ntasks + c.2.count .create = s.machine.ntasks + served.count .create) ?_ hfirst
      ⟨hs, rfl⟩
    rintro ⟨v, prog⟩ e ⟨v', prog'⟩ hstep ⟨hv, hn⟩
    exact ⟨ctlStep_coherent hstep hv, (ctlStep_creates hv hstep).trans hn⟩
  rw [hcount] at hbegin
  have hend : t.machine.Coherent ∧
      Refusing s.machine.ncpus (s.machine.ntasks + j) t.machine [] := by
    refine run_invariant (t := (t, []))
      (I := fun c => c.1.machine.Coherent ∧
        Refusing s.machine.ncpus (s.machine.ntasks + j) c.1.machine c.2) ?_ hlast
      ⟨hbegin.1, Refusing.create hbegin.2⟩
    rintro ⟨v, prog⟩ e ⟨v', prog'⟩ hstep ⟨hv, hr⟩
    exact ⟨ctlStep_coherent hstep hv, refusing_step hv hstep hr⟩
  rcases hend with ⟨-, _ | _ | ⟨-, hp⟩⟩
  exact hp

def refusalRun : List CtlLabel := (refusedCreate 1 0 0).map fun o => .op o noChoice

theorem refused_task_not_exited : ∃ t, run ctlStep (Session.boot 1, refusedCreate 1 0 0)
      refusalRun = some (t, []) ∧ (t.machine.tasks 0).place = .asleep .park ∧
    Ctrl.exit ∈ (t.machine.tasks 0).ring.contents kstepCtrlQueue :=
  ⟨_, rfl, rfl, by decide⟩

theorem refused_task_stays_parked_one_cpu : ∃ t, run ctlStep
      (Session.boot 1, refusedCreate 1 0 0) refusalRun = some (t, []) ∧
    Parked t.machine 0 [.exit] :=
  ⟨_, rfl, refused_task_stays_parked (Session.boot 1) _ 0 refusalRun
    (bootMachine_coherent 1) rfl⟩

end KStep
