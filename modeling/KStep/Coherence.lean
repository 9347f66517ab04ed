import KStep.MachineSteps

/-!
# The scheduler's view stays coherent

No CPU's step and no operation of the controller breaks it: a current task is where its CPU says,
a settled one is in its halt, and a sleeping one is on no runqueue. In between, a CPU that has put
its task away has none until it picks one, so the pick is shown to repair that CPU's view.
-/

namespace KStep

open Runs

namespace Machine

variable {m m' : Machine} {c d p q : ℕ} {t : Task} {k : Pick}

theorem pick_cases (h : m.pick c k = some m') :
    (m.queuedOn c = [] ∧ m' = (m.setCurr c none).setResched c false) ∨
      ∃ q d, q < m.ntasks ∧ (m.tasks q).loc = .queued d ∧
        m' = ((m.setTask q { m.tasks q with loc := .onCpu c }).setCurr c (some q)).setResched c
          false := by
  rcases k with q | _
  · simp only [pick] at h
    split_ifs at h with hq
    split at h
    · split_ifs at h
      cases h
      exact Or.inr ⟨q, _, hq, ‹_›, rfl⟩
    · cases h
  · simp only [pick] at h
    split_ifs at h with hempty
    cases h
    exact Or.inl ⟨hempty, rfl⟩

theorem wake_cases {w : Wake} (h : m.wake w = some m') :
    ∃ s place, w.task < m.ntasks ∧ (m.tasks w.task).place = .asleep s ∧
      (place = .reader ∨ place = .ret none) ∧
      (w.remote = true ∧
          m' = m.setTask w.task { m.tasks w.task with place := place, loc := .waking w.cpu } ∨
        w.remote = false ∧ m' = (m.setTask w.task { m.tasks w.task with place := place }).enqueue
          w.task w.cpu w.preempt) := by
  unfold wake at h
  by_cases hw : (decide (w.task < m.ntasks) && m.isTestCpu w.cpu) = true
  · rw [if_pos hw] at h
    simp only [Bool.and_eq_true, decide_eq_true_eq] at hw
    split at h
    · rename_i s hs
      refine ⟨s, if s = .chanRead then .reader else .ret none, hw.1, hs, ?_, ?_⟩
      · split_ifs
        · exact Or.inl rfl
        · exact Or.inr rfl
      · by_cases hremote : w.remote = true
        · rw [if_pos hremote] at h
          cases h
          exact Or.inl ⟨hremote, rfl⟩
        · rw [if_neg hremote] at h
          cases h
          exact Or.inr ⟨by simpa using hremote, rfl⟩
    · cases h
  · rw [if_neg hw] at h
    cases h

theorem interrupt_cases (m : Machine) (c : ℕ) : m.interrupt c = m ∨
    ∃ p, m.curr c = some p ∧ (m.tasks p).place = .halt ∧
      m.interrupt c = m.setTask p { m.tasks p with place := .leaving } := by
  unfold interrupt
  split
  · exact Or.inl rfl
  · rename_i p hp
    split_ifs with hhalt
    · exact Or.inr ⟨p, hp, hhalt, rfl⟩
    · exact Or.inl rfl

theorem enqueue_cases (m : Machine) (q c : ℕ) (b : Bool) :
    m.enqueue q c b = m.setTask q { m.tasks q with loc := .queued c } ∧ b = false ∧
        m.curr c ≠ none ∨
      m.enqueue q c b =
        ((m.setTask q { m.tasks q with loc := .queued c }).setResched c true).interrupt c := by
  unfold enqueue
  simp only
  split_ifs with h
  · exact Or.inr rfl
  · simp only [Bool.or_eq_true, beq_iff_eq, not_or, Bool.not_eq_true] at h
    exact Or.inl ⟨rfl, h.1, h.2⟩

theorem setTask_sound (hsound : ∀ q, (m.tasks q).Sound) (ht : t.Sound) (q : ℕ) :
    ((m.setTask p t).tasks q).Sound := by
  by_cases hq : q = p
  · rw [hq, setTask_tasks_self]
    exact ht
  · rw [setTask_tasks_ne m p q t hq]
    exact hsound q

theorem setTask_currAt (h : m.CurrAt c) (hloc : m.curr c = some p → t.loc = .onCpu c) :
    (m.setTask p t).CurrAt c := by
  intro q hq
  refine ⟨?_, (h q hq).2⟩
  by_cases hqp : q = p
  · rw [hqp, setTask_tasks_self]
    exact hloc (hqp ▸ hq)
  · rw [setTask_tasks_ne m p q t hqp]
    exact (h q hq).1

@[simp] theorem interrupt_curr : (m.interrupt c).curr = m.curr := by
  rcases m.interrupt_cases c with h | ⟨p, -, -, h⟩
  · rw [h]
  · rw [h, setTask_curr]

@[simp] theorem enqueue_curr {b : Bool} : (m.enqueue q c b).curr = m.curr := by
  rcases m.enqueue_cases q c b with ⟨h, -⟩ | h
  · rw [h, setTask_curr]
  · rw [h, interrupt_curr, setResched_curr, setTask_curr]

/-- A task's record may be replaced by a sound one that leaves it where its CPU says. -/
theorem Coherent.setTask (hm : m.Coherent) (ht : t.Sound)
    (hloc : ∀ c, m.curr c = some p → t.loc = .onCpu c) : (m.setTask p t).Coherent :=
  ⟨setTask_sound hm.sound ht, fun c => setTask_currAt (hm.currAt c) (hloc c)⟩

theorem Coherent.setTokens {n : ℕ} (hm : m.Coherent) : (m.setTokens n).Coherent :=
  ⟨hm.sound, hm.currAt⟩

theorem Coherent.setResched {b : Bool} (hm : m.Coherent) : (m.setResched c b).Coherent :=
  ⟨hm.sound, hm.currAt⟩

theorem Coherent.interrupt (hm : m.Coherent) : (m.interrupt c).Coherent := by
  rcases m.interrupt_cases c with h | ⟨p, hp, -, h⟩
  · rw [h]
    exact hm
  · rw [h]
    exact hm.setTask ⟨fun _ => Or.inr rfl, by simp⟩ fun d hd => (hm.currAt d p hd).1

theorem Coherent.enqueue {b : Bool} (hm : m.Coherent) (hcurr : ∀ c, m.curr c ≠ some q)
    (hawake : ∀ s, (m.tasks q).place ≠ .asleep s) : (m.enqueue q c b).Coherent := by
  have hq : (m.setTask q { m.tasks q with loc := .queued c }).Coherent :=
    hm.setTask ⟨(hm.sound q).settled_halt, fun s hs => absurd hs (hawake s)⟩
      fun c hc => absurd hc (hcurr c)
  rcases m.enqueue_cases q c b with ⟨h, -⟩ | h
  · rw [h]
    exact hq
  · rw [h]
    exact hq.setResched.interrupt

theorem Coherent.curr_ne (hm : m.Coherent) (h : ∀ c, (m.tasks q).loc ≠ .onCpu c) :
    m.curr c ≠ some q :=
  fun hc => h c (hm.currAt c q hc).1

theorem Coherent.wake {w : Wake} (hm : m.Coherent) (h : m.wake w = some m') : m'.Coherent := by
  obtain ⟨s, place, -, hs, hplace, hcase⟩ := wake_cases h
  have hoff := (hm.sound w.task).asleep_off s hs
  have hcurr (c : ℕ) : m.curr c ≠ some w.task := hm.curr_ne (by simp [hoff])
  have hset : (m.tasks w.task).settled = false := settled_eq_false hm (by simp [hs]) (by simp [hs])
  have hawake (s : Sleep) : place ≠ .asleep s := by
    rcases hplace with rfl | rfl <;> simp
  rcases hcase with ⟨-, rfl⟩ | ⟨-, rfl⟩
  · exact hm.setTask ⟨by simp [hset], fun s hs => absurd hs (hawake s)⟩
      fun c hc => absurd hc (hcurr c)
  · refine (hm.setTask ⟨by simp [hset], fun s hs => absurd hs (hawake s)⟩
      fun c hc => absurd hc (hcurr c)).enqueue hcurr ?_
    rw [setTask_tasks_self]
    exact hawake

theorem setCurr_curr_self {o : Option ℕ} : (m.setCurr c o).curr c = o := by
  simp only [setCurr, Function.update_self]

theorem setCurr_curr_ne {o : Option ℕ} (h : d ≠ c) : (m.setCurr c o).curr d = m.curr d := by
  simp only [setCurr, Function.update_of_ne h]

/-- A CPU that has put its task away sees its current task again once it has picked. -/
theorem pick_coherent (hsound : ∀ p, (m.tasks p).Sound) (hcurr : ∀ d, d ≠ c → m.CurrAt d)
    (h : m.pick c k = some m') : m'.Coherent := by
  rcases pick_cases h with ⟨-, rfl⟩ | ⟨q, e, hq, hloc, rfl⟩
  · refine ⟨hsound, fun d p hp => ?_⟩
    by_cases hd : d = c
    · subst hd
      exact absurd (hp.symm.trans setCurr_curr_self) (by simp)
    · exact hcurr d hd p ((setCurr_curr_ne hd).symm.trans hp)
  · refine ⟨fun p => ?_, fun d p hp => ?_⟩
    · rw [setResched_tasks, setCurr_tasks]
      by_cases hpq : p = q
      · have hs := hsound q
        rw [hpq, setTask_tasks_self]
        exact ⟨hs.settled_halt, fun s h => absurd ((hs.asleep_off s h).symm.trans hloc) (by simp)⟩
      · rw [setTask_tasks_ne m q p _ hpq]
        exact hsound p
    · rw [setResched_tasks, setCurr_tasks]
      by_cases hd : d = c
      · subst hd
        cases hp.symm.trans setCurr_curr_self
        rw [setTask_tasks_self]
        exact ⟨rfl, hq⟩
      · have hp' : m.curr d = some p := (setCurr_curr_ne hd).symm.trans hp
        have hpq : p ≠ q := by
          rintro rfl
          exact absurd (hloc.symm.trans (hcurr d hd p hp').1) (by simp)
        rw [setTask_tasks_ne m q p _ hpq]
        exact hcurr d hd p hp'

end Machine

variable {m m' : Machine} {a : Act} {c p : ℕ} {t : Task}

theorem Moved.sound (h : Moved a (m.tasks p) t)
    (hsleep : ∀ s, t.place = .asleep s → t.loc = .off) : t.Sound :=
  ⟨fun hset => Or.inl (h.settled hset), hsleep⟩

theorem Moved.coherent (hm : m.Coherent) (h : Moved a (m.tasks p) t)
    (hloc : t.loc = (m.tasks p).loc) (hawake : ∀ s, t.place ≠ .asleep s) :
    (m.setTask p t).Coherent :=
  hm.setTask (h.sound fun s hs => absurd hs (hawake s)) fun d hd => hloc.trans (hm.currAt d p hd).1

theorem Machine.Coherent.curr_inj (hm : m.Coherent) {d : ℕ} (hc : m.curr c = some p)
    (hd : m.curr d = some p) : c = d := by
  have h := (hm.currAt c p hc).1.symm.trans (hm.currAt d p hd).1
  exact Loc.onCpu.inj h

/-- A step of a CPU keeps the scheduler's view coherent. -/
theorem cpuStep_coherent (hm : m.Coherent) (h : cpuStep m c a = some m') : m'.Coherent := by
  cases cpuStep_move hm h with
  | stay hcurr hmoved hloc hawake => exact (hmoved.coherent hm hloc hawake).setTokens
  | @away p t k _ hcurr hmoved hloc hpick =>
      refine Machine.pick_coherent (Machine.setTask_sound hm.sound ?_) (fun d hd => ?_) hpick
      · refine hmoved.sound fun s hs => ?_
        rcases hloc with hoff | ⟨-, hawake⟩
        · exact hoff
        · exact absurd hs (hawake s)
      · exact Machine.setTask_currAt (hm.currAt d) fun hp => absurd (hm.curr_inj hp hcurr) hd
  | rouse hcurr hmoved hloc hawake hlabel hreader hwake =>
      exact (hmoved.coherent hm hloc hawake).setTokens.wake hwake
  | idle hcurr hread hresched hpick =>
      exact Machine.pick_coherent hm.sound (fun d _ => hm.currAt d) hpick
  | @ttwu q b hlt hlabel hloc =>
      refine (hm.enqueue (fun d => hm.curr_ne (by simp [hloc])) fun s hs => ?_).interrupt
      exact absurd (((hm.sound q).asleep_off s hs).symm.trans hloc) (by simp)

theorem migrate_cases {w : Wake} (h : m.migrate w = some m') :
    (∃ d, (m.tasks w.task).loc = .queued d) ∧ m' = m.enqueue w.task w.cpu w.preempt := by
  simp only [Machine.migrate] at h
  split_ifs at h
  split at h
  · cases h
    exact ⟨⟨_, ‹_›⟩, rfl⟩
  · cases h

theorem Machine.Coherent.migrate {w : Wake} (hm : m.Coherent) (h : m.migrate w = some m') :
    m'.Coherent := by
  obtain ⟨⟨d, hd⟩, rfl⟩ := migrate_cases h
  refine hm.enqueue (fun c => hm.curr_ne (by simp [hd])) fun s hs => ?_
  exact absurd (((hm.sound _).asleep_off s hs).symm.trans hd) (by simp)

theorem Machine.Coherent.schedTick {x : Choice} (hm : m.Coherent)
    (h : m.schedTick c x = some m') : m'.Coherent := by
  obtain ⟨n, hfold, rfl⟩ := Option.map_eq_some_iff.mp h
  have hstart : (if x.resched then m.setResched c true else m).Coherent := by
    split_ifs
    · exact hm.setResched
    · exact hm
  rw [foldlM_eq_run] at hfold
  exact (run_invariant (fun _ _ _ hstep hI => Machine.Coherent.migrate hI hstep) hfold
    hstart).interrupt

theorem Machine.Coherent.setSig {b : Bool} (hm : m.Coherent) :
    (m.setTask p { m.tasks p with sig := b }).Coherent :=
  hm.setTask ⟨(hm.sound p).settled_halt, (hm.sound p).asleep_off⟩ fun d hd => (hm.currAt d p hd).1

theorem Machine.Coherent.sendSig {x : Choice} (hm : m.Coherent) (h : m.sendSig p x = some m') :
    m'.Coherent := by
  simp only [Machine.sendSig] at h
  split at h
  · split_ifs at h
    exact hm.setSig.wake h
  · cases h
    exact hm.setSig.interrupt
  · cases h
    exact hm.setSig

theorem Machine.Coherent.letOut (hm : m.Coherent) : (m.letOut p).Coherent := by
  unfold Machine.letOut
  split
  · exact hm.interrupt
  · exact hm

theorem Machine.Coherent.create (hm : m.Coherent) : m.create.Coherent := by
  have hnew : (m.setTask m.ntasks parkedTask).Coherent :=
    hm.setTask ⟨by simp [parkedTask], by simp [parkedTask]⟩
      fun d hd => absurd (hm.currAt d _ hd).2 (lt_irrefl _)
  exact ⟨hnew.sound, fun c p hp =>
    ⟨(hnew.currAt c p hp).1, Nat.lt_succ_of_lt (hnew.currAt c p hp).2⟩⟩

/-- So does an operation of the controller. -/
theorem execOp_coherent {s s' : Session} {o : Op} {x : Choice} (hm : s.machine.Coherent)
    (h : execOp s o x = some s') : s'.machine.Coherent := by
  cases (execOp_move h).2 with
  | @put p a ring hput =>
      exact hm.setTask ⟨(hm.sound p).settled_halt, (hm.sound p).asleep_off⟩
        fun d hd => (hm.currAt d p hd).1
  | overrun hfull => exact hm
  | letOut => exact hm.letOut
  | signal hsig => exact hm.sendSig hsig
  | call htick => exact hm.schedTick htick
  | poll hsettled => exact hm
  | create hroom => exact hm.create

theorem cpuEnv_coherent {s s' : Session} {e : ℕ × Act} (hm : s.machine.Coherent)
    (h : cpuEnv s e = some s') : s'.machine.Coherent := by
  obtain ⟨-, m', hstep, rfl⟩ := cpuEnv_step h
  exact cpuStep_coherent hm hstep

theorem ctlStep_coherent {s s' : Session × List Op} {e : CtlLabel} (h : ctlStep s e = some s')
    (hm : s.1.machine.Coherent) : s'.1.machine.Coherent := by
  rcases interleave_cases h with ⟨o, x, -, -, hop⟩ | ⟨e, -, -, henv⟩
  · exact execOp_coherent hm hop
  · exact cpuEnv_coherent hm henv

end KStep
