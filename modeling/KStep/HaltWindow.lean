import KStep.CliSession
import KStep.TaskMoves

/-!
# The two halves of a control read

`kstep_ctrl_read` takes from the queue first, and only a read that has taken nothing goes on to
check for a reschedule or a signal and to halt. In between the controller may put an action or
send a signal. Here such a read is two steps, the take and the check; every other step of a CPU is
one of the machine's.
-/

namespace KStep

open RingQueue Runs

/-- A session with the tasks whose read has taken nothing and has not yet checked. -/
structure Fine where
  session : Session
  taken : ℕ → Bool

inductive FineAct
  | act (a : Act)
  /-- the check, and the halt unless it finds something -/
  | check (p : ℕ)
  deriving DecidableEq, Repr

/-- The rest of `kstep_ctrl_read` once it has taken nothing, with interrupts off. -/
def Machine.checkHalt (m : Machine) (c p : ℕ) : Machine :=
  if m.needResched c || (m.tasks p).sig then m.setTask p { m.tasks p with place := .ret none }
  else m.setTask p { m.tasks p with settled := true, place := .halt }

/-- A step of a CPU: a read that takes nothing only enters the window between the two halves. -/
def Fine.advance (s : Fine) (a : Act) (t : Session) : Fine :=
  if a.takesNothing s.session.machine then { s with taken := fun q => s.taken q || a.reads q }
  else { s with session := t }

def fineEnv (s : Fine) (e : ℕ × FineAct) : Option Fine :=
  match e.2 with
  | .check p =>
      if !s.session.panicked && s.session.machine.isTestCpu e.1 &&
          (s.session.machine.curr e.1 == some p && s.taken p) then
        some ⟨{ s.session with machine := s.session.machine.checkHalt e.1 p },
          Function.update s.taken p false⟩
      else none
  | .act a =>
      if a.actor.any s.taken then none else (cpuEnv s.session (e.1, a)).map (s.advance a)

def fineOp (s : Fine) (o : Op) (x : Choice) : Option Fine :=
  (execOp s.session o x).map fun t => { s with session := t }

abbrev FineLabel := Label Op Choice (ℕ × FineAct)

def fineStep : Fine × List Op → FineLabel → Option (Fine × List Op) := interleave fineOp fineEnv

def Fine.boot (k : ℕ) : Fine := ⟨Session.boot k, fun _ => false⟩

/-- When the queue has stayed empty, the two halves make the read of the machine. -/
theorem checkHalt_eq_ctrlRead {m : Machine} {c p : ℕ} {k : Pick}
    (h : (m.tasks p).ring.take kstepCtrlQueue = none) :
    m.ctrlRead c p k = some (m.checkHalt c p) := by
  simp only [Machine.ctrlRead, h, Machine.checkHalt]
  split
  · rfl
  · rfl

variable {m m' : Machine} {a : Act} {c p q : ℕ}

/-- Who makes a step of a CPU: its interrupt, the idle CPU or its current task. -/
theorem cpuStep_inv (h : cpuStep m c a = some m') :
    (∃ q b, a = .ttwu q b ∧ q < m.ntasks ∧ (m.tasks q).loc = .waking c ∧
      m' = (m.enqueue q c b).interrupt c) ∨
    (∃ k, a = .schedule k ∧ m.curr c = none ∧ m.needResched c = true ∧ m.pick c k = some m') ∨
    ∃ p, m.curr c = some p ∧ (a.actor = some p ∨ ∃ k, a = .schedule k) ∧
      taskStep m c p a = some m' := by
  unfold cpuStep at h
  by_cases hc : m.isTestCpu c = true
  · rw [if_pos hc] at h
    split at h
    next q b =>
      split_ifs at h with hq
      cases h
      simp only [Bool.and_eq_true, decide_eq_true_eq] at hq
      exact Or.inl ⟨q, b, rfl, hq.1, hq.2, rfl⟩
    next k =>
      split at h
      next hcurr =>
        split_ifs at h with hresched
        exact Or.inr (Or.inl ⟨k, rfl, hcurr, hresched, h⟩)
      next p hcurr => exact Or.inr (Or.inr ⟨p, hcurr, Or.inr ⟨k, rfl⟩, h⟩)
    next =>
      split at h
      next p p' hcurr hactor =>
        split_ifs at h with hp
        exact Or.inr (Or.inr ⟨p, hcurr, Or.inl (hp ▸ hactor), h⟩)
      next => cases h
  · rw [if_neg hc] at h
    cases h

theorem wake_curr {w : Wake} (h : m.wake w = some m') : m'.curr = m.curr := by
  obtain ⟨s, place, -, -, -, hcase⟩ := Machine.wake_cases h
  rcases hcase with ⟨-, rfl⟩ | ⟨-, rfl⟩
  · rfl
  · rw [Machine.enqueue_curr]
    rfl

/-- A CPU's step changes no other CPU's current task. -/
theorem cpuStep_curr (hm : m.Coherent) (h : cpuStep m c a = some m') {d : ℕ} (hd : d ≠ c) :
    m'.curr d = m.curr d := by
  have hpick {n : Machine} {k : Pick} (hn : n.pick c k = some m') : m'.curr d = n.curr d := by
    rcases Machine.pick_cases hn with ⟨-, rfl⟩ | ⟨q, e, -, -, rfl⟩
    · exact Machine.setCurr_curr_ne hd
    · exact Machine.setCurr_curr_ne hd
  cases cpuStep_move hm h with
  | stay hcurr hmoved hloc hawake => rfl
  | away hcurr hmoved hloc hp =>
      have hsame := hpick hp
      exact hsame
  | rouse hcurr hmoved hloc hawake hlabel hreader hwake =>
      rw [wake_curr hwake]
      rfl
  | idle hcurr hread hresched hp => exact hpick hp
  | ttwu hlt hlabel hloc => rw [Machine.interrupt_curr, Machine.enqueue_curr]

/-- A settled task can only leave its halt. -/
theorem taskStep_settled (hplace : (m.tasks p).place = .halt ∨ (m.tasks p).place = .leaving)
    (h : taskStep m c p a = some m') :
    (m.tasks p).place = .leaving ∧
      m' = m.setTask p { m.tasks p with settled := false, place := .ret none } := by
  simp only [taskStep] at h
  split at h
  next hleaving =>
    cases h
    exact ⟨hleaving, rfl⟩
  all_goals
    rcases hplace with hp | hp
    all_goals simp_all

/-- A step made by others leaves a task that is about to read, or reading, where it is. -/
theorem interrupt_user (hq : (m.tasks q).place = .user none) :
    ((m.interrupt c).tasks q).place = .user none := by
  rcases m.interrupt_cases c with heq | ⟨p, -, hhalt, heq⟩
  · rw [heq]
    exact hq
  · have hne : q ≠ p := by
      rintro rfl
      cases hq.symm.trans hhalt
    rw [heq, Machine.setTask_tasks_ne _ _ _ _ hne]
    exact hq

theorem setLoc_user {loc : Loc} (hq : (m.tasks q).place = .user none) :
    ((m.setTask p { m.tasks p with loc := loc }).tasks q).place = .user none := by
  by_cases hne : q = p
  · rw [hne, Machine.setTask_tasks_self, ← hne]
    exact hq
  · rw [Machine.setTask_tasks_ne _ _ _ _ hne]
    exact hq

theorem enqueue_user {b : Bool} (hq : (m.tasks q).place = .user none) :
    ((m.enqueue p c b).tasks q).place = .user none := by
  have hset : ((m.setTask p { m.tasks p with loc := .queued c }).tasks q).place = .user none :=
    setLoc_user hq
  rcases m.enqueue_cases p c b with ⟨heq, -⟩ | heq
  · rw [heq]
    exact hset
  · rw [heq]
    exact interrupt_user hset

theorem pick_user {k : Pick} (hq : (m.tasks q).place = .user none) (h : m.pick c k = some m') :
    (m'.tasks q).place = .user none := by
  rcases Machine.pick_cases h with ⟨-, rfl⟩ | ⟨p, d, -, -, rfl⟩
  · exact hq
  · exact setLoc_user hq

theorem wake_user {w : Wake} (hq : (m.tasks q).place = .user none) (h : m.wake w = some m') :
    (m'.tasks q).place = .user none := by
  obtain ⟨s, place, -, hs, -, hcase⟩ := Machine.wake_cases h
  have hne : q ≠ w.task := by
    rintro rfl
    cases hq.symm.trans hs
  rcases hcase with ⟨-, rfl⟩ | ⟨-, rfl⟩
  · rw [Machine.setTask_tasks_ne _ _ _ _ hne]
    exact hq
  · refine enqueue_user ?_
    rw [Machine.setTask_tasks_ne _ _ _ _ hne]
    exact hq

theorem cpuStep_user (hm : m.Coherent) (hq : (m.tasks q).place = .user none)
    (hactor : a.actor ≠ some q) (h : cpuStep m c a = some m') :
    (m'.tasks q).place = .user none := by
  rcases cpuStep_inv h with ⟨p, b, -, -, -, rfl⟩ | ⟨k, -, -, -, hpick⟩ | ⟨p, hp, hact, hstep⟩
  · exact interrupt_user (enqueue_user hq)
  · exact pick_user hq hpick
  have hne : q ≠ p := by
    rintro rfl
    rcases hact with hact | ⟨k, rfl⟩
    · exact hactor hact
    · simp [taskStep, hq] at hstep
  have hset {r : ℕ} (hr : m.curr c = some r) (t : Task) :
      ((m.setTask r t).tasks q).place = .user none := by
    obtain rfl : p = r := Option.some.inj (hp.symm.trans hr)
    rw [Machine.setTask_tasks_ne _ _ _ _ hne]
    exact hq
  cases cpuStep_move hm h with
  | stay hcurr hmoved hloc hawake => exact hset hcurr _
  | away hcurr hmoved hloc hpick => exact pick_user (hset hcurr _) hpick
  | @rouse r t n w _ hcurr hmoved hloc hawake hlabel hreader hwake =>
      have huser : (((m.setTask r t).setTokens n).tasks q).place = .user none := hset hcurr t
      exact wake_user huser hwake
  | idle hcurr hread hresched hpick => exact pick_user hq hpick
  | ttwu hlt hlabel hloc => exact interrupt_user (enqueue_user hq)

/-- What a session keeps between the halves of its reads: a task in the window is about to check,
and a settled task is the current one of its CPU. -/
structure Fine.Sound (s : Fine) : Prop where
  coherent : s.session.machine.Coherent
  taken : ∀ p, s.taken p = true → (s.session.machine.tasks p).place = .user none ∧
    ∃ c, s.session.machine.curr c = some p
  seated : ∀ p, (s.session.machine.tasks p).settled = true → ∃ c, s.session.machine.curr c = some p

theorem Move.settled {t t' : Task} (h : Move t t') (hset : t'.settled = true) :
    t.settled = true := by
  cases h with
  | leave h => cases hset
  | _ => exact hset

theorem Machine.Moves.settled (h : m.Moves m') (hset : (m'.tasks q).settled = true) :
    (m.tasks q).settled = true := by
  have hall : ∀ {t t' : Task}, Relation.ReflTransGen Move t t' → t'.settled = true →
      t.settled = true := by
    intro t t' hmoves
    induction hmoves with
    | refl => exact id
    | tail _ hmove ih => exact fun hset => ih (hmove.settled hset)
  exact hall (h q) hset

/-- A settled task stays the current one of its CPU, or is no longer settled. -/
theorem cpuStep_seated (hm : m.Coherent) (hnot : a.takesNothing m = false)
    (h : cpuStep m c a = some m') (hseat : ∀ p, (m.tasks p).settled = true → ∃ d, m.curr d = some p)
    (hset : (m'.tasks p).settled = true) : ∃ d, m'.curr d = some p := by
  have hold := (cpuStep_moves hnot h).settled hset
  obtain ⟨d, hd⟩ := hseat p hold
  by_cases hdc : d = c
  · subst hdc
    rcases cpuStep_inv h with ⟨q, b, -, -, -, rfl⟩ | ⟨k, -, hnone, -⟩ | ⟨q, hq, -, hstep⟩
    · exact ⟨d, by rw [Machine.interrupt_curr, Machine.enqueue_curr]; exact hd⟩
    · cases hd.symm.trans hnone
    · obtain rfl : p = q := Option.some.inj (hd.symm.trans hq)
      obtain ⟨-, rfl⟩ := taskStep_settled ((hm.sound p).settled_halt hold) hstep
      rw [Machine.setTask_tasks_self] at hset
      cases hset
  · exact ⟨d, (cpuStep_curr hm h hdc).trans hd⟩

/-- A task in the window stays the current one of its CPU. -/
theorem cpuStep_curr_user (hm : m.Coherent) (hq : (m.tasks q).place = .user none)
    (hactor : a.actor ≠ some q) (h : cpuStep m c a = some m') {d : ℕ} (hd : m.curr d = some q) :
    m'.curr d = some q := by
  by_cases hdc : d = c
  · subst hdc
    rcases cpuStep_inv h with ⟨p, b, -, -, -, rfl⟩ | ⟨k, -, hnone, -⟩ | ⟨p, hp, hact, hstep⟩
    · rw [Machine.interrupt_curr, Machine.enqueue_curr]
      exact hd
    · cases hd.symm.trans hnone
    · obtain rfl : q = p := Option.some.inj (hd.symm.trans hp)
      rcases hact with hact | ⟨k, rfl⟩
      · exact absurd hact hactor
      · simp [taskStep, hq] at hstep
  · exact (cpuStep_curr hm h hdc).trans hd

end KStep
