import KStep.Controller

/-!
# What a step of a test CPU can do

`CpuMove` says it once: the current task changes its own record, or is put away for another task,
or wakes a reader of the channel; an idle CPU picks a task; a pending wakeup is enqueued. The facts
about every step are read off it: which record's queue is read, that the scheduler's view stays
coherent, and what the other CPUs notice.
-/

namespace KStep

open RingQueue Runs

structure Task.Sound (t : Task) : Prop where
  settled_halt : t.settled = true → t.place = .halt ∨ t.place = .leaving
  asleep_off : ∀ s, t.place = .asleep s → t.loc = .off

/-- Where the scheduler has a CPU's current task, seen from the CPU. -/
def Machine.CurrAt (m : Machine) (c : ℕ) : Prop :=
  ∀ p, m.curr c = some p → (m.tasks p).loc = .onCpu c ∧ p < m.ntasks

structure Machine.Coherent (m : Machine) : Prop where
  sound : ∀ p, (m.tasks p).Sound
  currAt : ∀ c, m.CurrAt c

def Act.isRead : Act → Bool
  | .read _ _ => true
  | _ => false

def Act.wake : Act → Option Wake
  | .perform _ _ w | .look _ _ w => w
  | _ => none

structure Moved (a : Act) (t t' : Task) : Prop where
  not_halt : t.place ≠ .halt
  ring : t'.ring = if a.isRead then t.ring.drop kstepCtrlQueue else t.ring
  settled : t'.settled = true → t'.place = .halt

inductive CpuMove (m : Machine) (c : ℕ) (a : Act) : Machine → Prop
  | stay {p : ℕ} {t : Task} {n : ℕ} (hcurr : m.curr c = some p) (hmoved : Moved a (m.tasks p) t)
      (hloc : t.loc = (m.tasks p).loc) (hawake : ∀ s, t.place ≠ .asleep s) :
      CpuMove m c a ((m.setTask p t).setTokens n)
  | away {p : ℕ} {t : Task} {k : Pick} {m' : Machine} (hcurr : m.curr c = some p)
      (hmoved : Moved a (m.tasks p) t)
      (hloc : t.loc = .off ∨ t.loc = .queued c ∧ ∀ s, t.place ≠ .asleep s)
      (hpick : (m.setTask p t).pick c k = some m') : CpuMove m c a m'
  | rouse {p : ℕ} {t : Task} {n : ℕ} {w : Wake} {m' : Machine} (hcurr : m.curr c = some p)
      (hmoved : Moved a (m.tasks p) t) (hloc : t.loc = (m.tasks p).loc)
      (hawake : ∀ s, t.place ≠ .asleep s) (hlabel : a.wake = some w)
      (hreader : ((m.setTask p t).tasks w.task).place = .asleep .chanRead)
      (hwake : ((m.setTask p t).setTokens n).wake w = some m') : CpuMove m c a m'
  | idle {k : Pick} {m' : Machine} (hcurr : m.curr c = none) (hread : a.isRead = false)
      (hresched : m.needResched c = true) (hpick : m.pick c k = some m') : CpuMove m c a m'
  | ttwu {q : ℕ} {b : Bool} (hlt : q < m.ntasks) (hlabel : a = .ttwu q b)
      (hloc : (m.tasks q).loc = .waking c) : CpuMove m c a ((m.enqueue q c b).interrupt c)

namespace Machine

variable (m : Machine) (p q c : ℕ) (t t' : Task)

@[simp] theorem setTask_curr : (m.setTask p t).curr = m.curr := rfl

@[simp] theorem setTask_ntasks : (m.setTask p t).ntasks = m.ntasks := rfl

@[simp] theorem setTask_needResched : (m.setTask p t).needResched = m.needResched := rfl

@[simp] theorem setCurr_tasks (o : Option ℕ) : (m.setCurr c o).tasks = m.tasks := rfl

@[simp] theorem setCurr_ntasks (o : Option ℕ) : (m.setCurr c o).ntasks = m.ntasks := rfl

@[simp] theorem setCurr_needResched (o : Option ℕ) :
    (m.setCurr c o).needResched = m.needResched := rfl

@[simp] theorem setResched_tasks (b : Bool) : (m.setResched c b).tasks = m.tasks := rfl

@[simp] theorem setResched_curr (b : Bool) : (m.setResched c b).curr = m.curr := rfl

@[simp] theorem setResched_ntasks (b : Bool) : (m.setResched c b).ntasks = m.ntasks := rfl

theorem setTask_tasks_self : (m.setTask p t).tasks p = t := by
  simp only [setTask, Function.update_self]

theorem setTask_tasks_ne (h : q ≠ p) : (m.setTask p t).tasks q = m.tasks q := by
  simp only [setTask, Function.update_of_ne h]

theorem setTask_setTask : (m.setTask p t).setTask p t' = m.setTask p t' := by
  simp only [setTask, Function.update_idem]

theorem setTask_self : m.setTask p (m.tasks p) = m := by
  simp only [setTask, Function.update_eq_self]

end Machine

variable {m m' : Machine} {a : Act} {c p : ℕ} {t : Task} {k : Pick} {s : Sleep}

theorem kstepCpuSettled_iff : kstepCpuSettled m c = true ↔
    (∀ q < m.ntasks, (m.tasks q).loc ≠ .waking c) ∧ m.needResched c = false ∧
      (m.curr c = none → ∀ q < m.ntasks, (m.tasks q).loc ≠ .queued c) ∧
      ∀ p, m.curr c = some p → kstepTaskSettled (m.tasks p) = true := by
  have hpending : m.ttwuPending c = false ↔ ∀ q < m.ntasks, (m.tasks q).loc ≠ .waking c := by
    simp [Machine.ttwuPending]
  unfold kstepCpuSettled
  rcases hcurr : m.curr c with _ | p
  · simp [← hpending, Machine.nrRunning, Machine.queuedOn, hcurr, and_assoc]
  · simp [← hpending, and_assoc]

theorem sleepIn_move (hcurr : m.curr c = some p) (hnot : (m.tasks p).place ≠ .halt)
    (hring : t.ring = if a.isRead then (m.tasks p).ring.drop kstepCtrlQueue else (m.tasks p).ring)
    (hset : t.settled = false) (hloc : t.loc = (m.tasks p).loc)
    (h : (m.setTask p t).sleepIn c p s k = some m') : CpuMove m c a m' := by
  simp only [Machine.sleepIn, Machine.setTask_tasks_self, Machine.setTask_setTask] at h
  split_ifs at h with hsig
  · cases h
    exact CpuMove.stay (n := m.tokens) hcurr ⟨hnot, hring, by simp [hset]⟩ hloc (by simp)
  · exact CpuMove.away (t := { t with place := .asleep s, loc := .off }) hcurr
      ⟨hnot, hring, by simp [hset]⟩ (Or.inl rfl) h

theorem wakeReader_move {n : ℕ} {w : Option Wake} (hcurr : m.curr c = some p)
    (hmoved : Moved a (m.tasks p) t) (hloc : t.loc = (m.tasks p).loc)
    (hawake : ∀ s, t.place ≠ .asleep s) (hlabel : a.wake = w)
    (h : ((m.setTask p t).setTokens n).wakeReader w = some m') : CpuMove m c a m' := by
  rcases w with _ | w
  · cases h
    exact CpuMove.stay hcurr hmoved hloc hawake
  · simp only [Machine.wakeReader] at h
    split_ifs at h with hreader
    exact CpuMove.rouse hcurr hmoved hloc hawake hlabel hreader h

variable (hm : m.Coherent) (hcurr : m.curr c = some p)

include hm in
theorem settled_eq_false (hhalt : (m.tasks p).place ≠ .halt)
    (hleaving : (m.tasks p).place ≠ .leaving) : (m.tasks p).settled = false := by
  by_contra hset
  rcases (hm.sound p).settled_halt (by simpa using hset) with h | h
  · exact hhalt h
  · exact hleaving h

include hm hcurr in
theorem sleepIn_self_move (hread : a.isRead = false) (hhalt : (m.tasks p).place ≠ .halt)
    (hleaving : (m.tasks p).place ≠ .leaving) (h : m.sleepIn c p s k = some m') :
    CpuMove m c a m' := by
  rw [← m.setTask_self p] at h
  exact sleepIn_move hcurr hhalt (by simp [hread]) (settled_eq_false hm hhalt hleaving) rfl h

include hm hcurr in
theorem pipeRead_move {w : Option Wake} (hread : a.isRead = false) (hlabel : a.wake = w)
    (hhalt : (m.tasks p).place ≠ .halt) (hleaving : (m.tasks p).place ≠ .leaving)
    (h : m.pipeRead c p k w = some m') : CpuMove m c a m' := by
  have hset := settled_eq_false hm hhalt hleaving
  simp only [Machine.pipeRead] at h
  split_ifs at h
  · exact wakeReader_move (t := { m.tasks p with place := .ret none }) hcurr
      ⟨hhalt, by simp [hread], by simp [hset]⟩ rfl (by simp) hlabel h
  · exact sleepIn_self_move hm hcurr hread hhalt hleaving h

include hm hcurr in
theorem perform_move {act : Ctrl} {w : Option Wake} (hread : a.isRead = false)
    (hlabel : a.wake = w) (hplace : (m.tasks p).place = .user (some act))
    (h : m.perform c p act k w = some m') : CpuMove m c a m' := by
  have hhalt : (m.tasks p).place ≠ .halt := by simp [hplace]
  have hleaving : (m.tasks p).place ≠ .leaving := by simp [hplace]
  have hset := settled_eq_false hm hhalt hleaving
  rcases act with _ | _ | _ | _ | _ | _ | _
  · exact CpuMove.away hcurr ⟨hhalt, by simp [hread], by simp [hset]⟩ (Or.inl rfl) h
  · exact sleepIn_self_move hm hcurr hread hhalt hleaving h
  · exact sleepIn_self_move hm hcurr hread hhalt hleaving h
  · exact pipeRead_move hm hcurr hread hlabel hhalt hleaving h
  · exact wakeReader_move (t := { m.tasks p with place := .ret none }) hcurr
      ⟨hhalt, by simp [hread], by simp [hset]⟩ rfl (by simp) hlabel h
  · exact CpuMove.away hcurr ⟨hhalt, by simp [hread], by simp [hset]⟩ (Or.inr ⟨rfl, by simp⟩) h
  · cases h

include hm hcurr in
theorem ctrlRead_move (hread : a.isRead = true) (hplace : (m.tasks p).place = .user none)
    (h : m.ctrlRead c p k = some m') : CpuMove m c a m' := by
  have hhalt : (m.tasks p).place ≠ .halt := by simp [hplace]
  have hset := settled_eq_false hm hhalt (by simp [hplace])
  simp only [Machine.ctrlRead] at h
  split at h
  · rename_i ring htake
    exact sleepIn_move (t := { m.tasks p with ring := ring }) hcurr hhalt
      (by simp [hread, Buffer.drop, htake]) hset rfl h
  · rename_i act ring hact htake
    cases h
    exact CpuMove.stay (n := m.tokens) hcurr
      ⟨hhalt, by simp [hread, Buffer.drop, htake], by simp [hset]⟩ rfl (by simp)
  · rename_i htake
    split_ifs at h
    · cases h
      exact CpuMove.stay (n := m.tokens) hcurr
        ⟨hhalt, by simp [hread, Buffer.drop, htake], by simp [hset]⟩ rfl (by simp)
    · cases h
      exact CpuMove.stay (n := m.tokens) hcurr
        ⟨hhalt, by simp [hread, Buffer.drop, htake], by simp⟩ rfl (by simp)

include hm hcurr in
/-- A step of the current task that changes its place and no more. -/
theorem place_move {next : Option Ctrl} (hread : a.isRead = false)
    (hhalt : (m.tasks p).place ≠ .halt) (hleaving : (m.tasks p).place ≠ .leaving) {place : Place}
    {sig : Bool} (hplace : place = .ret next ∨ place = .user next) :
    CpuMove m c a (m.setTask p { m.tasks p with sig := sig, place := place }) := by
  have hset := settled_eq_false hm hhalt hleaving
  refine CpuMove.stay (n := m.tokens) hcurr ⟨hhalt, by simp [hread], by simp [hset]⟩ rfl ?_
  rcases hplace with rfl | rfl <;> simp

include hm hcurr in
theorem taskStep_move (h : taskStep m c p a = some m') : CpuMove m c a m' := by
  simp only [taskStep] at h
  split at h
  · rename_i hplace
    cases h
    exact CpuMove.stay (n := m.tokens) hcurr ⟨by simp [hplace], rfl, by simp⟩ rfl (by simp)
  · rename_i hplace
    split_ifs at h
    cases h
    exact place_move hm hcurr rfl (by simp [hplace]) (by simp [hplace]) (Or.inl hplace)
  · rename_i hplace
    split_ifs at h
    cases h
    exact place_move hm hcurr rfl (by simp [hplace]) (by simp [hplace]) (Or.inr rfl)
  · rename_i hplace
    split_ifs at h
    cases h
    exact place_move hm hcurr rfl (by simp [hplace]) (by simp [hplace]) (Or.inl rfl)
  · exact ctrlRead_move hm hcurr rfl ‹_› h
  · exact perform_move hm hcurr rfl rfl ‹_› h
  · rename_i hplace
    exact pipeRead_move hm hcurr rfl rfl (by simp [hplace]) (by simp [hplace]) h
  · rename_i hplace
    split_ifs at h
    have hset := settled_eq_false hm (p := p) (by simp [hplace]) (by simp [hplace])
    exact CpuMove.away (t := { m.tasks p with loc := .queued c }) hcurr
      ⟨by simp [hplace], rfl, by simp [hset]⟩ (Or.inr ⟨rfl, by simp [hplace]⟩) h
  · cases h

include hm in
/-- Every step a CPU takes is one of the moves. -/
theorem cpuStep_move (h : cpuStep m c a = some m') : CpuMove m c a m' := by
  unfold cpuStep at h
  by_cases hc : m.isTestCpu c = true
  · rw [if_pos hc] at h
    split at h
    · split_ifs at h with hq
      cases h
      simp only [Bool.and_eq_true, decide_eq_true_eq] at hq
      exact CpuMove.ttwu hq.1 rfl hq.2
    · split at h
      · split_ifs at h with hresched
        exact CpuMove.idle ‹_› rfl hresched h
      · exact taskStep_move hm ‹_› h
    · split at h
      · split_ifs at h with hp
        exact taskStep_move hm ‹_› h
      · cases h
  · rw [if_neg hc] at h
    cases h

end KStep
