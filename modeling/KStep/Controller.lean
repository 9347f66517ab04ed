import KStep.Machine

/-!
# The controller

The controller runs on CPU 0 and works through one operation after the other: it puts actions in
control queues, lets a halted task out, signals, calls the tick on a test CPU and polls. Between
any two of them, and while one waits, the test CPUs take steps of their own.
-/

namespace KStep

open RingQueue Runs

inductive Op
  /-- `kstep_ctrl_put` -/
  | put (p : ℕ) (a : Ctrl)
  /-- the call that lets `p` out of its halt, when `settled` says it is in it -/
  | letOut (p : ℕ)
  /-- `send_sig(SIGUSR1, p, 0)` -/
  | signal (p : ℕ)
  /-- `smp_call_function_single(c, kstep_do_sched_tick, NULL, 1)` -/
  | call (c : ℕ)
  /-- `while (!kstep_cpu_settled(c)) cpu_relax()` -/
  | poll (c : ℕ)
  /-- `kstep_task_create()`: a new task, parked -/
  | create
  deriving DecidableEq, Repr

def testCpuList (k : ℕ) : List ℕ := List.range' 1 k

def kstepSettle (k : ℕ) : List Op := (testCpuList k).map .poll

/-- `kstep_tick`, as far as it orders the CPUs. -/
def kstepTick (k : ℕ) : List Op := kstepSettle k ++ (testCpuList k).map .call ++ kstepSettle k

def kstepTaskCtrl (k p : ℕ) (a : Ctrl) : List Op := .put p a :: .letOut p :: kstepSettle k

def kstepTaskWakeup (k p : ℕ) : List Op := .signal p :: kstepSettle k

/-- How the kernel's choices fall during one operation: where a signalled task is woken, whether
the tick asks for a reschedule, and which queued tasks it moves where. -/
structure Choice where
  wake : Wake
  resched : Bool
  moves : List Wake
  deriving Repr

def noChoice : Choice := ⟨⟨0, 0, false, false⟩, false, []⟩

structure Session where
  machine : Machine
  panicked : Bool

/-- A new task's record: its queue has held the `PARK` that its first read took. -/
def parkedTask : Task where
  ring := { slots := fun _ => .park, head := 1, tail := 1 }
  settled := false
  sig := false
  place := .asleep .park
  loc := .off

namespace Machine

def migrate (m : Machine) (w : Wake) : Option Machine :=
  if w.task < m.ntasks && m.isTestCpu w.cpu then
    match (m.tasks w.task).loc with
    | .queued _ => some (m.enqueue w.task w.cpu w.preempt)
    | _ => none
  else none

/-- The tick handler and drained softirq of CPU `c`, an interrupt there. -/
def schedTick (m : Machine) (c : ℕ) (x : Choice) : Option Machine :=
  (x.moves.foldlM migrate (if x.resched then m.setResched c true else m)).map (interrupt · c)

/-- A signal wakes a sleeping task and interrupts a running one. -/
def sendSig (m : Machine) (p : ℕ) (x : Choice) : Option Machine :=
  let m' := m.setTask p { m.tasks p with sig := true }
  match (m.tasks p).place, (m.tasks p).loc with
  | .asleep _, _ => if x.wake.task = p then m'.wake x.wake else none
  | _, .onCpu c => some (m'.interrupt c)
  | _, _ => some m'

def letOut (m : Machine) (p : ℕ) : Machine :=
  match (m.tasks p).settled, (m.tasks p).loc with
  | true, .onCpu c => m.interrupt c
  | _, _ => m

def create (m : Machine) : Machine :=
  { m.setTask m.ntasks parkedTask with ntasks := m.ntasks + 1 }

end Machine

/-- One operation of the controller; a poll waits until its CPU has settled, and a task created
past the end of the session's table has no result. -/
def execOp (s : Session) (o : Op) (x : Choice) : Option Session :=
  if s.panicked then none
  else
    let m := s.machine
    let ok (m' : Machine) : Session := { s with machine := m' }
    match o with
    | .put p a => match (m.tasks p).ring.put kstepCtrlQueue a with
      | none => some { s with panicked := true }
      | some ring => some (ok (m.setTask p { m.tasks p with ring := ring }))
    | .letOut p => some (ok (m.letOut p))
    | .signal p => (m.sendSig p x).map ok
    | .call c => (m.schedTick c x).map ok
    | .poll c => if kstepCpuSettled m c then some s else none
    | .create => if m.ntasks < kstepShmTasks then some (ok m.create) else none

inductive OpMove (s : Session) (x : Choice) : Op → Session → Prop
  | put {p : ℕ} {a : Ctrl} {ring : Buffer Ctrl}
      (hput : (s.machine.tasks p).ring.put kstepCtrlQueue a = some ring) :
      OpMove s x (.put p a)
        { s with machine := s.machine.setTask p { s.machine.tasks p with ring := ring } }
  | overrun {p : ℕ} {a : Ctrl} (hfull : (s.machine.tasks p).ring.put kstepCtrlQueue a = none) :
      OpMove s x (.put p a) { s with panicked := true }
  | letOut {p : ℕ} : OpMove s x (.letOut p) { s with machine := s.machine.letOut p }
  | signal {p : ℕ} {m' : Machine} (hsig : s.machine.sendSig p x = some m') :
      OpMove s x (.signal p) { s with machine := m' }
  | call {c : ℕ} {m' : Machine} (htick : s.machine.schedTick c x = some m') :
      OpMove s x (.call c) { s with machine := m' }
  | poll {c : ℕ} (hsettled : kstepCpuSettled s.machine c = true) : OpMove s x (.poll c) s
  | create (hroom : s.machine.ntasks < kstepShmTasks) :
      OpMove s x .create { s with machine := s.machine.create }

theorem execOp_move {s s' : Session} {o : Op} {x : Choice} (h : execOp s o x = some s') :
    s.panicked = false ∧ OpMove s x o s' := by
  unfold execOp at h
  split_ifs at h with hpanic
  refine ⟨Bool.eq_false_iff.mpr hpanic, ?_⟩
  cases o with
  | put p a =>
      simp only at h
      split at h
      next hfull =>
        cases h
        exact OpMove.overrun hfull
      next ring hput =>
        cases h
        exact OpMove.put hput
  | letOut p =>
      cases h
      exact OpMove.letOut
  | signal p =>
      obtain ⟨m', hsig, rfl⟩ := Option.map_eq_some_iff.mp h
      exact OpMove.signal hsig
  | call c =>
      obtain ⟨m', htick, rfl⟩ := Option.map_eq_some_iff.mp h
      exact OpMove.call htick
  | poll c =>
      simp only at h
      split_ifs at h with hsettled
      cases h
      exact OpMove.poll hsettled
  | create =>
      simp only at h
      split_ifs at h with hroom
      cases h
      exact OpMove.create hroom

def cpuEnv (s : Session) (e : ℕ × Act) : Option Session :=
  if s.panicked then none
  else (cpuStep s.machine e.1 e.2).map fun m => { s with machine := m }

theorem cpuEnv_step {s s' : Session} {c : ℕ} {a : Act} (h : cpuEnv s (c, a) = some s') :
    s.panicked = false ∧ ∃ m', cpuStep s.machine c a = some m' ∧ s' = { s with machine := m' } := by
  unfold cpuEnv at h
  split_ifs at h with hpanic
  obtain ⟨m', hstep, rfl⟩ := Option.map_eq_some_iff.mp h
  exact ⟨Bool.eq_false_iff.mpr hpanic, m', hstep, rfl⟩

abbrev CtlLabel := Label Op Choice (ℕ × Act)

def ctlStep : Session × List Op → CtlLabel → Option (Session × List Op) := interleave execOp cpuEnv

end KStep
