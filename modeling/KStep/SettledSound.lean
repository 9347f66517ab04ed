import KStep.WindowSeats

/-!
# What a settled CPU has left to do

A CPU that `kstep_cpu_settled` calls settled has no action of its current task to take or perform,
no signal, no reschedule and no wakeup. Its task is in the halt, or an interrupt has just ended the
halt and the flag is not yet cleared; then it goes once around its loop and halts again, unless the
controller or another CPU comes in between.
-/

namespace KStep

open RingQueue Runs

structure Machine.NothingToDo (m : Machine) (c : ℕ) : Prop where
  resched : m.needResched c = false
  waking : ∀ q < m.ntasks, (m.tasks q).loc ≠ .waking c
  queued : m.curr c = none → ∀ q < m.ntasks, (m.tasks q).loc ≠ .queued c
  pending : ∀ p, m.curr c = some p → (m.tasks p).pending = []
  sig : ∀ p, m.curr c = some p → (m.tasks p).sig = false

/-- Where a task is that goes around its loop with nothing to do. -/
inductive Phase
  | halt | leaving | ret | user | taken
  deriving DecidableEq, Repr

def Phase.place : Phase → Place
  | .halt => .halt
  | .leaving => .leaving
  | .ret => .ret none
  | .user | .taken => .user none

def Phase.settled : Phase → Bool
  | .halt | .leaving => true
  | _ => false

/-- The steps left until the task is in the halt. -/
def Phase.rank : Phase → ℕ
  | .halt => 0
  | .taken => 1
  | .user => 2
  | .ret => 3
  | .leaving => 4

structure Rounds (m : Machine) (p : ℕ) (phase : Phase) (s : Fine) : Prop where
  machine : s.session.machine =
    m.setTask p { m.tasks p with settled := phase.settled, place := phase.place }
  taken : s.taken p = decide (phase = .taken)

variable {m m' : Machine} {c p : ℕ} {s t : Fine}

theorem pending_eq_nil_iff {t : Task} :
    t.pending = [] ↔ t.place.handed = [] ∧ t.ring.head = t.ring.tail := by
  rw [Task.pending, List.append_eq_nil_iff, ← Buffer.take_eq_none_iff]
  simp [Buffer.take]

theorem Machine.Coherent.nothingToDo (hm : m.Coherent) (h : kstepCpuSettled m c = true) :
    m.NothingToDo c := by
  obtain ⟨hwaking, hresched, hqueued, htask⟩ := kstepCpuSettled_iff.mp h
  refine ⟨hresched, hwaking, hqueued, fun p hp => ?_, fun p hp => ?_⟩
  · have hset := htask p hp
    simp only [kstepTaskSettled, Bool.and_eq_true, decide_eq_true_eq] at hset
    refine pending_eq_nil_iff.mpr ⟨?_, hset.1.2⟩
    rcases (hm.sound p).settled_halt hset.1.1 with hplace | hplace
    · rw [hplace]
      rfl
    · rw [hplace]
      rfl
  · have hset := htask p hp
    simp only [kstepTaskSettled, Bool.and_eq_true, Bool.not_eq_true'] at hset
    exact hset.2

namespace Rounds

variable {phase : Phase}

theorem task (hs : Rounds m p phase s) : s.session.machine.tasks p =
    { m.tasks p with settled := phase.settled, place := phase.place } := by
  rw [hs.machine, Machine.setTask_tasks_self]

theorem loc (hs : Rounds m p phase s) (q : ℕ) :
    (s.session.machine.tasks q).loc = (m.tasks q).loc := by
  rw [hs.machine]
  by_cases hqp : q = p
  · rw [hqp, Machine.setTask_tasks_self]
  · rw [Machine.setTask_tasks_ne _ _ _ _ hqp]

theorem resched (hs : Rounds m p phase s) (hdo : m.NothingToDo c) :
    s.session.machine.needResched c = false := by
  rw [hs.machine]
  exact hdo.resched

theorem waking (hs : Rounds m p phase s) (hdo : m.NothingToDo c) (q : ℕ)
    (hq : q < s.session.machine.ntasks) : (s.session.machine.tasks q).loc ≠ .waking c := by
  rw [hs.machine] at hq
  rw [hs.loc]
  exact hdo.waking q hq

/-- A task on its round has still nothing to do. -/
theorem nothingToDo (hs : Rounds m p phase s) (hdo : m.NothingToDo c) (hp : m.curr c = some p) :
    s.session.machine.NothingToDo c := by
  have hhanded : phase.place.handed = [] := by
    cases phase with
    | _ => rfl
  have hcurr (q : ℕ) (hq : s.session.machine.curr c = some q) : q = p := by
    rw [hs.machine] at hq
    exact Option.some.inj (hq.symm.trans hp)
  refine ⟨hs.resched hdo, hs.waking hdo, fun hnone => ?_, fun q hq => ?_, fun q hq => ?_⟩
  · rw [hs.machine] at hnone
    cases hnone.symm.trans hp
  · rw [hcurr q hq, pending_eq_nil_iff, hs.task]
    exact ⟨hhanded, (pending_eq_nil_iff.mp (hdo.pending p hp)).2⟩
  · rw [hcurr q hq, hs.task]
    exact hdo.sig p hp

end Rounds

/-- With nothing to do, the only steps of a task are those around its loop. -/
theorem taskStep_nothing {a : Act} {phase : Phase} (hplace : (m.tasks p).place = phase.place)
    (hsig : (m.tasks p).sig = false) (hresched : m.needResched c = false)
    (h : taskStep m c p a = some m') :
    (phase = .leaving ∧ a.takesNothing m = false ∧
      m' = m.setTask p { m.tasks p with settled := false, place := .ret none }) ∨
    (phase = .ret ∧ a.takesNothing m = false ∧
      m' = m.setTask p { m.tasks p with place := .user none }) ∨
    (phase = .user ∨ phase = .taken) ∧ ∃ q k, a = .read q k := by
  cases phase with
  | halt => simp [taskStep, hplace, Phase.place] at h
  | leaving =>
      cases a with
      | leave q =>
          simp only [taskStep, hplace, Phase.place, Option.some.injEq] at h
          exact Or.inl ⟨rfl, rfl, h.symm⟩
      | _ => simp [taskStep, hplace, Phase.place] at h
  | ret =>
      cases a with
      | resume q =>
          have hquiet : ¬ ((m.tasks p).sig || m.needResched c) = true := by simp [hsig, hresched]
          simp only [taskStep, hplace, Phase.place, if_neg hquiet, Option.some.injEq] at h
          exact Or.inr (Or.inl ⟨rfl, rfl, h.symm⟩)
      | _ => simp [taskStep, hplace, Phase.place, hsig, hresched] at h
  | user =>
      cases a with
      | read q k => exact Or.inr (Or.inr ⟨Or.inl rfl, q, k, rfl⟩)
      | _ => simp [taskStep, hplace, Phase.place, hsig, hresched] at h
  | taken =>
      cases a with
      | read q k => exact Or.inr (Or.inr ⟨Or.inr rfl, q, k, rfl⟩)
      | _ => simp [taskStep, hplace, Phase.place, hsig, hresched] at h

/-- With nothing to do, a step of the CPU brings its task one step nearer to the halt. -/
theorem rounds_step {phase : Phase} {e : FineAct} (hdo : m.NothingToDo c)
    (hp : m.curr c = some p) (hs : Rounds m p phase s) (h : fineEnv s (c, e) = some t) :
    ∃ phase', Rounds m p phase' t ∧ phase'.rank + 1 = phase.rank := by
  have hring := (pending_eq_nil_iff.mp (hdo.pending p hp)).2
  have hcurr : s.session.machine.curr c = some p := by
    rw [hs.machine]
    exact hp
  have htask := hs.task
  have hresched := hs.resched hdo
  have hnosig : (s.session.machine.tasks p).sig = false := by
    rw [htask]
    exact hdo.sig p hp
  rcases fineEnv_cases h with ⟨q, -, hq, htaken, rfl⟩ | ⟨a, m', -, hactor, hstep, rfl⟩
  · obtain rfl : p = q := Option.some.inj (hcurr.symm.trans hq)
    obtain rfl : phase = .taken := of_decide_eq_true (hs.taken.symm.trans htaken)
    refine ⟨.halt, ⟨?_, Function.update_self _ _ _⟩, rfl⟩
    show s.session.machine.checkHalt c p = _
    rw [Machine.checkHalt, hresched, hnosig, Bool.or_self, if_neg Bool.false_ne_true, htask,
      hs.machine, Machine.setTask_setTask]
    rfl
  · rcases cpuStep_inv hstep with ⟨q, b, -, hlt, hwaking, -⟩ | ⟨k, -, hnone, -⟩ |
      ⟨q, hq, hact, htaskStep⟩
    · exact absurd hwaking (hs.waking hdo q hlt)
    · cases hcurr.symm.trans hnone
    obtain rfl : p = q := Option.some.inj (hcurr.symm.trans hq)
    have hplace : (s.session.machine.tasks p).place = phase.place := by rw [htask]
    rcases taskStep_nothing hplace hnosig hresched htaskStep with ⟨rfl, hnot, rfl⟩ |
      ⟨rfl, hnot, rfl⟩ | ⟨hphase, q, k, rfl⟩
    · refine ⟨.ret, ⟨?_, ?_⟩, rfl⟩
      · simp only [Fine.advance, hnot, Bool.false_eq_true, if_false, htask]
        rw [hs.machine, Machine.setTask_setTask]
        rfl
      · simp only [Fine.advance, hnot, Bool.false_eq_true, if_false]
        exact hs.taken
    · refine ⟨.user, ⟨?_, ?_⟩, rfl⟩
      · simp only [Fine.advance, hnot, Bool.false_eq_true, if_false, htask]
        rw [hs.machine, Machine.setTask_setTask]
        rfl
      · simp only [Fine.advance, hnot, Bool.false_eq_true, if_false]
        exact hs.taken
    · obtain rfl : q = p := by
        rcases hact with hact | ⟨k', hk'⟩
        · exact Option.some.inj hact
        · cases hk'
      have hfree := hactor q rfl
      have hnothing : Act.takesNothing s.session.machine (.read q k) = true := by
        simp [Act.takesNothing, htask, Buffer.take, hring]
      rcases hphase with rfl | rfl
      · refine ⟨.taken, ⟨?_, ?_⟩, rfl⟩
        · simp only [Fine.advance, hnothing, if_true]
          exact hs.machine
        · simp [Fine.advance, hnothing, Act.reads]
      · rw [hs.taken] at hfree
        cases hfree

theorem rounds_run {phase : Phase} {l : List FineAct} (hdo : m.NothingToDo c)
    (hp : m.curr c = some p) (hs : Rounds m p phase s)
    (h : run fineEnv s (l.map fun e => (c, e)) = some t) :
    ∃ phase', Rounds m p phase' t ∧ l.length + phase'.rank = phase.rank := by
  induction l generalizing s phase with
  | nil =>
      cases h
      exact ⟨phase, hs, Nat.zero_add _⟩
  | cons e l ih =>
      obtain ⟨u, hu, hrun⟩ := run_cons h
      obtain ⟨next, hnext, hrank⟩ := rounds_step hdo hp hs hu
      obtain ⟨phase', hend, hlen⟩ := ih hnext hrun
      refine ⟨phase', hend, ?_⟩
      rw [List.length_cons]
      omega

/-- An idle CPU with nothing to do makes no step. -/
theorem idle_step {e : FineAct} (hdo : s.session.machine.NothingToDo c)
    (hc : s.session.machine.curr c = none) : fineEnv s (c, e) = none := by
  by_contra hstep
  obtain ⟨t, h⟩ := Option.ne_none_iff_exists'.mp hstep
  rcases fineEnv_cases h with ⟨p, -, hcurr, -, -⟩ | ⟨a, m', -, -, hact, -⟩
  · cases hcurr.symm.trans hc
  · rcases cpuStep_inv hact with ⟨q, b, -, hlt, hwaking, -⟩ | ⟨k, -, -, hresched, -⟩ | ⟨p, hp, -⟩
    · exact hdo.waking q hlt hwaking
    · cases hresched.symm.trans hdo.resched
    · cases hp.symm.trans hc

/-- A sound session's settled current task is about to start its round, or in the halt. -/
theorem Fine.Sound.rounds (hs : s.Sound) (hp : s.session.machine.curr c = some p)
    (hset : kstepCpuSettled s.session.machine c = true) :
    ∃ phase, (phase = .halt ∨ phase = .leaving) ∧ Rounds s.session.machine p phase s := by
  have htask := (kstepCpuSettled_iff.mp hset).2.2.2 p hp
  simp only [kstepTaskSettled, Bool.and_eq_true] at htask
  have hplace := (hs.coherent.sound p).settled_halt htask.1.1
  have htaken : s.taken p = false := by
    by_contra htaken
    rw [Bool.not_eq_false] at htaken
    rcases hplace with hplace | hplace
    · cases hplace.symm.trans (hs.taken p htaken).1
    · cases hplace.symm.trans (hs.taken p htaken).1
  have hsame {phase : Phase} (hsettled : phase.settled = true)
      (heq : (s.session.machine.tasks p).place = phase.place) (hnot : phase ≠ .taken) :
      Rounds s.session.machine p phase s := by
    refine ⟨?_, ?_⟩
    · rw [hsettled, ← heq, ← htask.1.1]
      exact (s.session.machine.setTask_self p).symm
    · rw [htaken, decide_eq_false hnot]
  rcases hplace with hplace | hplace
  · exact ⟨.halt, Or.inl rfl, hsame rfl hplace (by decide)⟩
  · exact ⟨.leaving, Or.inr rfl, hsame rfl hplace (by decide)⟩

/-- In every interleaving of the controller with the tasks, a task is marked settled only while it
is the current one of its CPU, in the halt or just let out of it; a CPU that looks settled has
nothing to do, and what it may still do on its own is to bring a task let out of the halt around
its loop and back. -/
theorem settled_sound (k : ℕ) (prog : List Op) (l : List FineLabel) (s : Fine × List Op)
    (h : run fineStep (Fine.boot k, prog) l = some s) :
    (∀ p, (s.1.session.machine.tasks p).settled = true →
      ∃ c, s.1.session.machine.curr c = some p ∧
        ((s.1.session.machine.tasks p).place = .halt ∨
          (s.1.session.machine.tasks p).place = .leaving)) ∧
    ∀ c, kstepCpuSettled s.1.session.machine c = true →
      s.1.session.machine.NothingToDo c ∧
      ∀ (own : List FineAct) (t : Fine), run fineEnv s.1 (own.map fun e => (c, e)) = some t →
        own = [] ∨ ∃ p phase, s.1.session.machine.curr c = some p ∧
          (s.1.session.machine.tasks p).place = .leaving ∧
          Rounds s.1.session.machine p phase t ∧ own.length + phase.rank = Phase.leaving.rank ∧
          t.session.machine.NothingToDo c := by
  have hs := fineRun_sound h
  refine ⟨fun p hp => ?_, fun c hc => ?_⟩
  · obtain ⟨c, hcurr⟩ := hs.seated p hp
    exact ⟨c, hcurr, (hs.coherent.sound p).settled_halt hp⟩
  have hdo := hs.coherent.nothingToDo hc
  refine ⟨hdo, fun own t hrun => ?_⟩
  cases hcurr : s.1.session.machine.curr c with
  | none =>
      cases own with
      | nil => exact Or.inl rfl
      | cons e own =>
          obtain ⟨u, hu, -⟩ := run_cons hrun
          rw [idle_step hdo hcurr] at hu
          cases hu
  | some p =>
      obtain ⟨start, hstart, hround⟩ := hs.rounds hcurr hc
      obtain ⟨phase, hend, hrank⟩ := rounds_run hdo hcurr hround hrun
      rcases hstart with rfl | rfl
      · have hlen : own.length = 0 := Nat.eq_zero_of_add_eq_zero_right hrank
        exact Or.inl (List.eq_nil_of_length_eq_zero hlen)
      · have hplace : (s.1.session.machine.tasks p).place = .leaving := by
          rw [hround.machine, Machine.setTask_tasks_self]
          rfl
        exact Or.inr ⟨p, phase, rfl, hplace, hend, hrank, hend.nothingToDo hdo hcurr⟩

end KStep
