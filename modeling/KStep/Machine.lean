import KStep.RingQueue
import KStep.Runs
import Mathlib.Data.List.Range

/-!
# The test CPUs and their tasks

A task runs the loop of `task_main`: it reads the control file, and makes the syscall of the action
the read hands it or halts in the read when there is none. A test CPU runs one task or idles; the
other runnable tasks queue on a CPU, and a task woken from another CPU may first wait on that CPU's
wake list. `cpuStep` is one step a CPU takes on its own. What the kernel's scheduler decides, which
task runs next and where a woken task is placed, is left open and carried by the step's label.
-/

namespace KStep

open RingQueue

/-- `enum kstep_ctrl`; `NONE` is the answer of an empty queue. -/
inductive Ctrl
  | exit | pause | block | chanRead | chanWrite | yield | park
  deriving DecidableEq, Repr

def kstepCtrlQueue : ℕ := 8

def kstepShmTasks : ℕ := 64

inductive Sleep
  | park | pause | block | chanRead
  deriving DecidableEq, Repr

/-- Where a task is in its loop, with the action it has been handed and not yet performed. -/
inductive Place
  /-- in user mode, about to read, or to make the syscall of `next` -/
  | user (next : Option Ctrl)
  /-- in the kernel on its way back to user mode -/
  | ret (next : Option Ctrl)
  /-- in the halt of the control read -/
  | halt
  /-- the halt has ended, `settled` is not yet cleared -/
  | leaving
  /-- in the channel's read, woken and about to look for a byte -/
  | reader
  | asleep (sleep : Sleep)
  | dead
  deriving DecidableEq, Repr

inductive Loc
  | off
  | onCpu (cpu : ℕ)
  | queued (cpu : ℕ)
  | waking (cpu : ℕ)
  deriving DecidableEq, Repr

/-- `struct kstep_task` with what the kernel knows of the task: a pending signal, and where it
is. -/
structure Task where
  ring : Buffer Ctrl
  settled : Bool
  sig : Bool
  place : Place
  loc : Loc

/-- Test CPUs `1..ncpus`, tasks `0..ntasks-1`, and the bytes waiting in the channel. -/
structure Machine where
  ncpus : ℕ
  ntasks : ℕ
  tasks : ℕ → Task
  curr : ℕ → Option ℕ
  needResched : ℕ → Bool
  tokens : ℕ

namespace Machine

def setTask (m : Machine) (p : ℕ) (t : Task) : Machine :=
  { m with tasks := Function.update m.tasks p t }

def setResched (m : Machine) (c : ℕ) (b : Bool) : Machine :=
  { m with needResched := Function.update m.needResched c b }

def setCurr (m : Machine) (c : ℕ) (q : Option ℕ) : Machine :=
  { m with curr := Function.update m.curr c q }

def setTokens (m : Machine) (n : ℕ) : Machine := { m with tokens := n }

def isTestCpu (m : Machine) (c : ℕ) : Bool := 1 ≤ c && c ≤ m.ncpus

/-- The tasks waiting on a CPU's runqueue, without the current one. -/
def queuedOn (m : Machine) (c : ℕ) : List ℕ :=
  (List.range m.ntasks).filter fun p => (m.tasks p).loc = .queued c

def nrRunning (m : Machine) (c : ℕ) : ℕ :=
  (m.queuedOn c).length + if (m.curr c).isSome then 1 else 0

def ttwuPending (m : Machine) (c : ℕ) : Bool :=
  (List.range m.ntasks).any fun p => (m.tasks p).loc = .waking c

end Machine

def kstepTaskSettled (t : Task) : Bool :=
  t.settled && decide (t.ring.head = t.ring.tail) && !t.sig

def kstepCpuSettled (m : Machine) (c : ℕ) : Bool :=
  if m.ttwuPending c || m.needResched c then false
  else match m.curr c with
    | none => m.nrRunning c == 0
    | some p => kstepTaskSettled (m.tasks p)

/-- What `schedule()` picks: a task of the CPU's own queue, one pulled from another queue when its
own is empty, or the idle task. -/
inductive Pick
  | task (q : ℕ)
  | idle
  deriving DecidableEq, Repr

/-- How a wakeup is placed: the task, the CPU, whether through that CPU's wake list, and whether it
preempts what runs there. -/
structure Wake where
  task : ℕ
  cpu : ℕ
  remote : Bool
  preempt : Bool
  deriving DecidableEq, Repr

namespace Machine

def interrupt (m : Machine) (c : ℕ) : Machine :=
  match m.curr c with
  | none => m
  | some p => if (m.tasks p).place = .halt
      then m.setTask p { m.tasks p with place := .leaving } else m

def enqueue (m : Machine) (q c : ℕ) (preempt : Bool) : Machine :=
  let m' := m.setTask q { m.tasks q with loc := .queued c }
  if preempt || m.curr c == none then (m'.setResched c true).interrupt c else m'

/-- Wake a sleeping task. A reader of the channel looks for its byte again; every other sleep is
over. -/
def wake (m : Machine) (w : Wake) : Option Machine :=
  if w.task < m.ntasks && m.isTestCpu w.cpu then
    match (m.tasks w.task).place with
    | .asleep s =>
        let t := { m.tasks w.task with place := if s = .chanRead then .reader else .ret none }
        if w.remote then some (m.setTask w.task { t with loc := .waking w.cpu })
        else some ((m.setTask w.task t).enqueue w.task w.cpu w.preempt)
    | _ => none
  else none

def pick (m : Machine) (c : ℕ) : Pick → Option Machine
  | .idle => if m.queuedOn c = [] then some ((m.setCurr c none).setResched c false) else none
  | .task q =>
      if q < m.ntasks then
        match (m.tasks q).loc with
        | .queued d => if d = c ∨ m.queuedOn c = [] then
            some (((m.setTask q { m.tasks q with loc := .onCpu c }).setCurr c (some q)).setResched c
              false) else none
        | _ => none
      else none

/-- The current task sleeps, unless a signal is pending, and the CPU picks another. -/
def sleepIn (m : Machine) (c p : ℕ) (s : Sleep) (k : Pick) : Option Machine :=
  if (m.tasks p).sig then some (m.setTask p { m.tasks p with place := .ret none })
  else (m.setTask p { m.tasks p with place := .asleep s, loc := .off }).pick c k

/-- The channel wakes at most one of the readers asleep in it. -/
def wakeReader (m : Machine) : Option Wake → Option Machine
  | none => some m
  | some w => if (m.tasks w.task).place = .asleep .chanRead then m.wake w else none

def pipeRead (m : Machine) (c p : ℕ) (k : Pick) (w : Option Wake) : Option Machine :=
  if 0 < m.tokens then
    ((m.setTask p { m.tasks p with place := .ret none }).setTokens (m.tokens - 1)).wakeReader w
  else m.sleepIn c p .chanRead k

def pipeWrite (m : Machine) (p : ℕ) (w : Option Wake) : Option Machine :=
  ((m.setTask p { m.tasks p with place := .ret none }).setTokens (m.tokens + 1)).wakeReader w

def perform (m : Machine) (c p : ℕ) (a : Ctrl) (k : Pick) (w : Option Wake) : Option Machine :=
  match a with
  | .exit => (m.setTask p { m.tasks p with place := .dead, loc := .off }).pick c k
  | .pause => m.sleepIn c p .pause k
  | .block => m.sleepIn c p .block k
  | .chanRead => m.pipeRead c p k w
  | .chanWrite => m.pipeWrite p w
  | .yield => (m.setTask p { m.tasks p with place := .ret none, loc := .queued c }).pick c k
  | .park => none

/-- `kstep_ctrl_read` of the current task `p`. A read that takes nothing halts, or returns at once
when a reschedule or a signal is waiting. -/
def ctrlRead (m : Machine) (c p : ℕ) (k : Pick) : Option Machine :=
  match (m.tasks p).ring.take kstepCtrlQueue with
  | some (.park, ring) => (m.setTask p { m.tasks p with ring := ring }).sleepIn c p .park k
  | some (a, ring) => some (m.setTask p { m.tasks p with ring := ring, place := .ret (some a) })
  | none => if m.needResched c || (m.tasks p).sig
      then some (m.setTask p { m.tasks p with place := .ret none })
      else some (m.setTask p { m.tasks p with settled := true, place := .halt })

end Machine

/-- The steps a CPU takes on its own; `p` is its current task. -/
inductive Act
  | leave (p : ℕ)
  | handle (p : ℕ)
  | resume (p : ℕ)
  | trap (p : ℕ)
  | read (p : ℕ) (k : Pick)
  | perform (p : ℕ) (k : Pick) (w : Option Wake)
  | look (p : ℕ) (k : Pick) (w : Option Wake)
  | schedule (k : Pick)
  | ttwu (q : ℕ) (preempt : Bool)
  deriving DecidableEq, Repr

def taskStep (m : Machine) (c p : ℕ) (a : Act) : Option Machine :=
  let t := m.tasks p
  match t.place, a with
  | .leaving, .leave _ => some (m.setTask p { t with settled := false, place := .ret none })
  | .ret _, .handle _ => if t.sig then some (m.setTask p { t with sig := false }) else none
  | .ret next, .resume _ =>
      if t.sig || m.needResched c then none else some (m.setTask p { t with place := .user next })
  | .user next, .trap _ =>
      if t.sig || m.needResched c then some (m.setTask p { t with place := .ret next }) else none
  | .user none, .read _ k => m.ctrlRead c p k
  | .user (some act), .perform _ k w => m.perform c p act k w
  | .reader, .look _ k w => m.pipeRead c p k w
  | .ret _, .schedule k => if m.needResched c
      then (m.setTask p { t with loc := .queued c }).pick c k else none
  | _, _ => none

def Act.actor : Act → Option ℕ
  | .leave p | .handle p | .resume p | .trap p | .read p _ | .perform p _ _
  | .look p _ _ => some p
  | .schedule _ | .ttwu _ _ => none

/-- A step of CPU `c`. The interrupt behind a pending wakeup enqueues the task and ends a halt. -/
def cpuStep (m : Machine) (c : ℕ) (a : Act) : Option Machine :=
  if m.isTestCpu c then
    match a with
    | .ttwu q preempt =>
        if q < m.ntasks && (m.tasks q).loc = .waking c
        then some ((m.enqueue q c preempt).interrupt c) else none
    | .schedule k => match m.curr c with
      | none => if m.needResched c then m.pick c k else none
      | some p => taskStep m c p (.schedule k)
    | a => match m.curr c, a.actor with
      | some p, some p' => if p = p' then taskStep m c p a else none
      | _, _ => none
  else none

end KStep
