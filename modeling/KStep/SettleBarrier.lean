import KStep.Coherence

/-!
# Settling as a barrier

`kstep_settle` passes each test CPU once, when `kstep_cpu_settled` holds of it. A CPU that is quiet
takes no step of its own, and the steps of the other CPUs spare it unless they wake a task onto it.
So the CPUs passed are all settled at the end as long as no such wakeup reaches one of them and no
poll passes a task that has left its halt and not yet cleared `settled`.
-/

namespace KStep

open Runs

variable {m m' m'' : Machine} {a : Act} {c d p q : ℕ} {t : Task} {k : Pick}

/-- The CPU has settled and its task is still in the halt. -/
structure Machine.Quiet (m : Machine) (c : ℕ) : Prop where
  settled : kstepCpuSettled m c = true
  halt : ∀ p, m.curr c = some p → (m.tasks p).place = .halt

/-- What CPU `c` can notice of a step: its own task and flags are as before, and nothing has come
to its wake list, nor to its queue while it is idle. -/
structure Spares (c : ℕ) (m m' : Machine) : Prop where
  ntasks : m'.ntasks = m.ntasks
  curr : m'.curr c = m.curr c
  resched : m'.needResched c = m.needResched c
  task : ∀ p, m.curr c = some p → m'.tasks p = m.tasks p
  waking : ∀ q, (m'.tasks q).loc = .waking c → (m.tasks q).loc = .waking c
  queued : m.curr c = none → ∀ q, (m'.tasks q).loc = .queued c → (m.tasks q).loc = .queued c

namespace Spares

theorem refl (c : ℕ) (m : Machine) : Spares c m m :=
  ⟨rfl, rfl, rfl, fun _ _ => rfl, fun _ h => h, fun _ _ h => h⟩

theorem trans (h : Spares c m m') (h' : Spares c m' m'') : Spares c m m'' where
  ntasks := h'.ntasks.trans h.ntasks
  curr := h'.curr.trans h.curr
  resched := h'.resched.trans h.resched
  task p hp := (h'.task p (h.curr.trans hp)).trans (h.task p hp)
  waking q hq := h.waking q (h'.waking q hq)
  queued hidle q hq := h.queued hidle q (h'.queued (h.curr.trans hidle) q hq)

theorem quiet (h : Spares c m m') (hc : m.Quiet c) : m'.Quiet c := by
  obtain ⟨hwaking, hresched, hqueued, htask⟩ := kstepCpuSettled_iff.mp hc.settled
  refine ⟨kstepCpuSettled_iff.mpr ⟨?_, h.resched.trans hresched, ?_, ?_⟩, ?_⟩
  · intro q hq hloc
    exact hwaking q (h.ntasks ▸ hq) (h.waking q hloc)
  · intro hidle q hq hloc
    have hidle' := h.curr.symm.trans hidle
    exact hqueued hidle' q (h.ntasks ▸ hq) (h.queued hidle' q hloc)
  · intro p hp
    have hp' := h.curr.symm.trans hp
    rw [h.task p hp']
    exact htask p hp'
  · intro p hp
    have hp' := h.curr.symm.trans hp
    rw [h.task p hp']
    exact hc.halt p hp'

theorem setTask (hp : m.curr c ≠ some p)
    (hwaking : t.loc = .waking c → (m.tasks p).loc = .waking c)
    (hqueued : m.curr c = none → t.loc = .queued c → (m.tasks p).loc = .queued c) :
    Spares c m (m.setTask p t) where
  ntasks := rfl
  curr := rfl
  resched := rfl
  task q hq := m.setTask_tasks_ne p q t (by rintro rfl; exact hp hq)
  waking q hq := by
    by_cases hqp : q = p
    · rw [hqp] at hq ⊢
      exact hwaking (m.setTask_tasks_self p t ▸ hq)
    · exact m.setTask_tasks_ne p q t hqp ▸ hq
  queued hidle q hq := by
    by_cases hqp : q = p
    · rw [hqp] at hq ⊢
      exact hqueued hidle (m.setTask_tasks_self p t ▸ hq)
    · exact m.setTask_tasks_ne p q t hqp ▸ hq

theorem setTokens {n : ℕ} : Spares c m (m.setTokens n) :=
  ⟨rfl, rfl, rfl, fun _ _ => rfl, fun _ h => h, fun _ _ h => h⟩

theorem setResched {b : Bool} (hd : d ≠ c) : Spares c m (m.setResched d b) := by
  refine ⟨rfl, rfl, ?_, fun _ _ => rfl, fun _ h => h, fun _ _ h => h⟩
  simp only [Machine.setResched, Function.update_of_ne hd.symm]

theorem setCurr {o : Option ℕ} (hd : d ≠ c) : Spares c m (m.setCurr d o) :=
  ⟨rfl, Machine.setCurr_curr_ne hd.symm, rfl, fun _ _ => rfl, fun _ h => h, fun _ _ h => h⟩

theorem interrupt (h : ∀ p, m.curr d = some p → m.curr c ≠ some p) :
    Spares c m (m.interrupt d) := by
  rcases m.interrupt_cases d with heq | ⟨p, hp, -, heq⟩
  · rw [heq]
    exact refl c m
  · rw [heq]
    exact setTask (h p hp) id fun _ => id

theorem enqueue {b : Bool} (hd : d ≠ c) (hq : m.curr c ≠ some q)
    (h : ∀ p, m.curr d = some p → m.curr c ≠ some p) : Spares c m (m.enqueue q d b) := by
  have hset : Spares c m (m.setTask q { m.tasks q with loc := .queued d }) :=
    setTask hq (by simp) (by simp [hd])
  rcases m.enqueue_cases q d b with ⟨heq, -⟩ | heq
  · rw [heq]
    exact hset
  · rw [heq]
    exact (hset.trans (setResched hd)).trans (interrupt h)

/-- A task put on the queue of a CPU that runs another, without preempting it. -/
theorem enqueue_busy (hbusy : m.curr c ≠ none) (hq : m.curr c ≠ some q) :
    Spares c m (m.enqueue q c false) := by
  have heq : m.enqueue q c false = m.setTask q { m.tasks q with loc := .queued c } := by
    simp [Machine.enqueue, hbusy]
  rw [heq]
  exact setTask hq (by simp) fun hidle => absurd hidle hbusy

theorem pick (hd : d ≠ c) (hcurr : m.CurrAt c) (h : m.pick d k = some m') : Spares c m m' := by
  rcases Machine.pick_cases h with ⟨-, rfl⟩ | ⟨q, e, -, hloc, rfl⟩
  · exact (setCurr hd).trans (setResched hd)
  · have hq : m.curr c ≠ some q := fun hc => by
      exact absurd (hloc.symm.trans (hcurr q hc).1) (by simp)
    exact ((setTask hq (by simp) (by simp)).trans (setCurr hd)).trans (setResched hd)

theorem wake {w : Wake} (hm : m.Coherent) (h : m.wake w = some m')
    (hw : w.cpu = c → w.remote = false ∧ w.preempt = false ∧ m.curr c ≠ none) :
    Spares c m m' := by
  obtain ⟨s, place, -, hs, -, hcase⟩ := Machine.wake_cases h
  have hoff := (hm.sound w.task).asleep_off s hs
  have hq (c : ℕ) : m.curr c ≠ some w.task := hm.curr_ne (by simp [hoff])
  by_cases hcpu : w.cpu = c
  · obtain ⟨hremote, hpreempt, hbusy⟩ := hw hcpu
    rcases hcase with ⟨h, -⟩ | ⟨-, rfl⟩
    · exact absurd (h.symm.trans hremote) (by simp)
    · rw [hpreempt, hcpu]
      refine (setTask (hq c) ?_ ?_).trans (enqueue_busy hbusy (hq c))
      · simp [hoff]
      · simp [hoff]
  · have hinj (p : ℕ) (hp : m.curr w.cpu = some p) : m.curr c ≠ some p :=
      fun hc => hcpu (hm.curr_inj hp hc)
    rcases hcase with ⟨-, rfl⟩ | ⟨-, rfl⟩
    · exact setTask (hq c) (by simp [hcpu]) (by simp)
    · exact (setTask (hq c) (by simp [hoff]) (by simp [hoff])).trans
        (enqueue hcpu (hq c) hinj)

end Spares

/-- A wakeup that a CPU already passed may get: one that queues behind the task halting there. -/
def Harmless (m : Machine) (w : Wake) : Prop :=
  w.remote = false ∧ w.preempt = false ∧ m.curr w.cpu ≠ none

instance (m : Machine) (w : Wake) : Decidable (Harmless m w) :=
  inferInstanceAs (Decidable (_ ∧ _ ∧ _))

/-- A step of another CPU spares CPU `c` unless it wakes a task onto it. -/
theorem cpuStep_spares (hm : m.Coherent) (h : cpuStep m d a = some m') (hd : d ≠ c)
    (hw : ∀ w, a.wake = some w → w.cpu = c → Harmless m w) : Spares c m m' := by
  have hne (p : ℕ) (hp : m.curr d = some p) : m.curr c ≠ some p :=
    fun hc => hd (hm.curr_inj hp hc)
  have hstay {p : ℕ} {t : Task} (hp : m.curr d = some p) (hloc : t.loc = (m.tasks p).loc) :
      Spares c m (m.setTask p t) :=
    Spares.setTask (hne p hp) (fun h => hloc ▸ h) fun _ h => hloc ▸ h
  cases cpuStep_move hm h with
  | stay hcurr hmoved hloc hawake => exact (hstay hcurr hloc).trans Spares.setTokens
  | @away p t k _ hcurr hmoved hloc hpick =>
      have hset : Spares c m (m.setTask p t) := by
        rcases hloc with hoff | ⟨hq, -⟩
        · exact Spares.setTask (hne p hcurr) (by simp [hoff]) (by simp [hoff])
        · exact Spares.setTask (hne p hcurr) (by simp [hq]) (by simp [hq, hd])
      exact hset.trans (Spares.pick hd
        (Machine.setTask_currAt (hm.currAt c) fun hc => absurd hc (hne p hcurr)) hpick)
  | rouse hcurr hmoved hloc hawake hlabel hreader hwake =>
      exact ((hstay hcurr hloc).trans Spares.setTokens).trans
        (Spares.wake (hmoved.coherent hm hloc hawake).setTokens hwake fun hcpu =>
          hcpu ▸ hw _ hlabel hcpu)
  | idle hcurr hread hresched hpick => exact Spares.pick hd (hm.currAt c) hpick
  | @ttwu q b hlt hlabel hloc =>
      have hq : m.curr c ≠ some q := hm.curr_ne (by simp [hloc])
      refine (Spares.enqueue hd hq hne).trans (Spares.interrupt ?_)
      rw [Machine.enqueue_curr]
      exact hne

/-- A quiet CPU takes no step of its own. -/
theorem cpuStep_quiet (hm : m.Coherent) (hc : m.Quiet c) : cpuStep m c a = none := by
  obtain ⟨hwaking, hresched, -, -⟩ := kstepCpuSettled_iff.mp hc.settled
  by_contra hstep
  obtain ⟨m', h⟩ := Option.ne_none_iff_exists'.mp hstep
  cases cpuStep_move hm h with
  | stay hcurr hmoved hloc hawake => exact hmoved.not_halt (hc.halt _ hcurr)
  | away hcurr hmoved hloc hpick => exact hmoved.not_halt (hc.halt _ hcurr)
  | rouse hcurr hmoved hloc hawake hlabel hreader hwake => exact hmoved.not_halt (hc.halt _ hcurr)
  | idle hcurr hread hresched' hpick => exact absurd (hresched'.symm.trans hresched) (by simp)
  | ttwu hlt hlabel hloc => exact hwaking _ hlt hloc

/-- The condition on a step of a settling controller: a poll does not pass a task on its way out of
its halt, and a CPU already passed gets no wakeup that concerns it. -/
def Undisturbed : Session × List Op → CtlLabel → Prop
  | (s, _), .op (.poll c) _ =>
      ∀ p ∈ s.machine.curr c, (s.machine.tasks p).place ≠ .leaving
  | _, .op _ _ => True
  | (s, prog), .env (_, a) => ∀ w ∈ a.wake, Op.poll w.cpu ∉ prog → Harmless s.machine w

instance (s : Session × List Op) : ∀ e, Decidable (Undisturbed s e)
  | .op (.poll c) _ =>
      inferInstanceAs (Decidable (∀ p ∈ s.1.machine.curr c, (s.1.machine.tasks p).place ≠ .leaving))
  | .op (.put _ _) _ | .op (.letOut _) _ | .op (.signal _) _ | .op (.call _) _ | .op .create _ =>
      isTrue trivial
  | .env e => inferInstanceAs
      (Decidable (∀ w ∈ e.2.wake, Op.poll w.cpu ∉ s.2 → Harmless s.1.machine w))

/-- Where a settling controller stands: it has only polls left, and the CPUs passed are quiet. -/
structure Settling (k : ℕ) (s : Session × List Op) : Prop where
  coherent : s.1.machine.Coherent
  polls : ∀ o ∈ s.2, ∃ c, o = .poll c
  passed : ∀ c, 1 ≤ c → c ≤ k → .poll c ∉ s.2 → s.1.machine.Quiet c

theorem settling_start {s : Session} (k : ℕ) (hm : s.machine.Coherent) :
    Settling k (s, kstepSettle k) := by
  refine ⟨hm, fun o ho => ?_, fun c hc hk hmem => ?_⟩
  · obtain ⟨c, -, rfl⟩ := List.mem_map.mp ho
    exact ⟨c, rfl⟩
  · refine absurd (List.mem_map.mpr ⟨c, ?_, rfl⟩) hmem
    exact List.mem_range'_1.mpr ⟨hc, by omega⟩

theorem Machine.Coherent.quiet (hm : m.Coherent) (hc : kstepCpuSettled m c = true)
    (hleaving : ∀ p, m.curr c = some p → (m.tasks p).place ≠ .leaving) : m.Quiet c := by
  refine ⟨hc, fun p hp => ?_⟩
  have hset := (kstepCpuSettled_iff.mp hc).2.2.2 p hp
  simp only [kstepTaskSettled, Bool.and_eq_true] at hset
  exact ((hm.sound p).settled_halt hset.1.1).resolve_right (hleaving p hp)

theorem settling_step {k : ℕ} (s : Session × List Op) (e : CtlLabel) (s' : Session × List Op)
    (hu : Undisturbed s e) (h : ctlStep s e = some s') (hs : Settling k s) : Settling k s' := by
  obtain ⟨s, prog⟩ := s
  obtain ⟨s', prog'⟩ := s'
  have hm := ctlStep_coherent h hs.coherent
  rcases interleave_cases h with ⟨o, x, rfl, rfl, hop⟩ | ⟨⟨d, a⟩, rfl, rfl, henv⟩
  · obtain ⟨c, rfl⟩ := hs.polls o List.mem_cons_self
    refine ⟨hm, fun o ho => hs.polls o (List.mem_cons_of_mem _ ho), fun d hd hk hmem => ?_⟩
    cases (execOp_move hop).2 with
    | poll hsettled =>
        by_cases hdc : d = c
        · rw [hdc]
          exact hs.coherent.quiet hsettled hu
        · refine hs.passed d hd hk ?_
          simp [hdc, hmem]
  · refine ⟨hm, hs.polls, fun c hc hk hmem => ?_⟩
    have hquiet := hs.passed c hc hk hmem
    obtain ⟨-, m', hstep, rfl⟩ := cpuEnv_step henv
    have hdc : d ≠ c := by
      rintro rfl
      rw [cpuStep_quiet hs.coherent hquiet] at hstep
      cases hstep
    exact (cpuStep_spares hs.coherent hstep hdc fun w hw hcpu =>
      hu w hw (hcpu ▸ hmem)).quiet hquiet

/-- In every interleaving whose steps leave the CPUs already passed undisturbed, all test CPUs are
settled at once when `kstep_settle` has returned. -/
theorem settle_all_settled (s s' : Session) (l : List CtlLabel) (hs : s.machine.Coherent)
    (hl : Always ctlStep Undisturbed (s, kstepSettle s.machine.ncpus) l)
    (h : run ctlStep (s, kstepSettle s.machine.ncpus) l = some (s', [])) (c : ℕ) (hc : 1 ≤ c)
    (hk : c ≤ s.machine.ncpus) : kstepCpuSettled s'.machine c = true := by
  have hend := run_invariant_of_always settling_step h hl (settling_start s.machine.ncpus hs)
  exact (hend.passed c hc hk (by simp)).settled

def freeTask (settled : Bool) (place : Place) (loc : Loc) : Task where
  ring := { slots := fun _ => .park, head := 1, tail := 1 }
  settled := settled
  sig := false
  place := place
  loc := loc

/-- Two test CPUs: the first idle, the second running a task about to write to the channel that
another task sleeps in. -/
def writerMachine : Machine where
  ncpus := 2
  ntasks := 2
  tasks p := if p = 0 then freeTask false (.asleep .chanRead) .off
    else if p = 1 then freeTask false (.user (some .chanWrite)) (.onCpu 2) else parkedTask
  curr c := if c = 2 then some 1 else none
  needResched _ := false
  tokens := 0

theorem writerMachine_coherent : writerMachine.Coherent := by
  refine ⟨fun p => ?_, fun c p hp => ?_⟩
  · simp only [writerMachine]
    split_ifs
    · exact ⟨by simp [freeTask], by simp [freeTask]⟩
    · exact ⟨by simp [freeTask], by simp [freeTask]⟩
    · exact ⟨by simp [parkedTask], by simp [parkedTask]⟩
  · simp only [writerMachine] at hp
    split_ifs at hp with hc
    cases hp
    rw [hc]
    exact ⟨rfl, by decide⟩

/-- The first CPU is polled while idle; the second then wakes the reader onto it, halts, and is
polled in turn. -/
def lateWakeup : List CtlLabel :=
  [.op (.poll 1) noChoice, .env (2, .perform 1 .idle (some ⟨0, 1, true, false⟩)),
    .env (2, .resume 1), .env (2, .read 1 .idle), .op (.poll 2) noChoice]

theorem settle_returns_unsettled : ∃ (s s' : Session) (l : List CtlLabel) (c : ℕ),
    s.machine.Coherent ∧ run ctlStep (s, kstepSettle s.machine.ncpus) l = some (s', []) ∧
      1 ≤ c ∧ c ≤ s.machine.ncpus ∧ kstepCpuSettled s'.machine c = false :=
  ⟨⟨writerMachine, false⟩, _, lateWakeup, 1, writerMachine_coherent, rfl, by decide, by decide,
    by decide⟩

def earlyWakeup : List CtlLabel :=
  [.env (2, .perform 1 .idle (some ⟨0, 1, true, false⟩)), .env (1, .ttwu 0 false),
    .env (1, .schedule (.task 0)), .env (1, .look 0 .idle none), .env (1, .resume 0),
    .env (1, .read 0 .idle), .op (.poll 1) noChoice, .env (2, .resume 1), .env (2, .read 1 .idle),
    .op (.poll 2) noChoice]

theorem settle_all_settled_early_wakeup : ∃ s', run ctlStep (⟨writerMachine, false⟩, kstepSettle 2)
    earlyWakeup = some (s', []) ∧ ∀ c, 1 ≤ c → c ≤ 2 → kstepCpuSettled s'.machine c = true :=
  ⟨_, rfl, settle_all_settled ⟨writerMachine, false⟩ _ earlyWakeup writerMachine_coherent
    (by decide) rfl⟩

end KStep
