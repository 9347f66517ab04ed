import KStep.Pipe
import Mathlib.Algebra.BigOperators.Group.Finset.Basic

/-!
# The tasks' pipe counts

A post is asked of a task by an action in its queue, handed to it by a read and made in its own
time; a wait may sleep in the pipe's read and be interrupted by a wakeup. The books are kept over a
whole session: every post asked for is in the pipe, taken by exactly one wait, or still to be made,
and every wait asked for has taken a byte, was interrupted, or is not over.
-/

namespace KStep.Pipe

open RingQueue Runs Cli Finset

def looks (m : Machine) : Act → Option ℕ
  | .perform p _ _ => if (m.tasks p).place = .user (some .chanRead) then some p else none
  | .look p _ _ => some p
  | _ => none

def written (m : Machine) : Act → ℕ
  | .perform p _ _ => if (m.tasks p).place = .user (some .chanWrite) then 1 else 0
  | _ => 0

def served (m : Machine) (a : Act) : ℕ := if (looks m a).isSome && 0 < m.tokens then 1 else 0

/-- The waits that a step ends without one, for a signal. -/
def interrupted (m : Machine) (a : Act) : ℕ :=
  match looks m a with
  | some p => if m.tokens = 0 && (m.tasks p).sig then 1 else 0
  | none => 0

def onCpu (f : Machine → Act → ℕ) (s : Session × List Op) : SessionLabel → ℕ
  | .ctl (.env (_, a)) => f s.1.machine a
  | _ => 0

def ended (s : Session × List Op) (e : SessionLabel) : ℕ :=
  onCpu served s e + onCpu interrupted s e

/-- The calls of `kstep_ctrl_put` with an action, but for one that panics. -/
def asksFor (a : Ctrl) (s : Session × List Op) : SessionLabel → ℕ
  | .ctl (.op (.put p b) _) =>
      if b = a && ((s.1.machine.tasks p).ring.put kstepCtrlQueue b).isSome then 1 else 0
  | _ => 0

def counted (base : CliView) (k : ℕ) (l : List SessionLabel)
    (f : Session × List Op → SessionLabel → ℕ) : ℕ :=
  tally (sessionStep base) f (Session.boot k, []) l

def total (f : Task → ℕ) (m : Machine) : ℕ := ∑ p ∈ range m.ntasks, f (m.tasks p)

variable {m m' : Machine} {c p : ℕ} {t : Task} {k : Pick} {w : Option Wake} {act : Act}

theorem total_setTask {f : Task → ℕ} (hp : p < m.ntasks) :
    total f (m.setTask p t) + f (m.tasks p) = total f m + f t := by
  have hmem : p ∈ range m.ntasks := mem_range.mpr hp
  have hrest : ∑ q ∈ (range m.ntasks).erase p, f ((m.setTask p t).tasks q) =
      ∑ q ∈ (range m.ntasks).erase p, f (m.tasks q) := by
    refine sum_congr rfl fun q hq => ?_
    rw [m.setTask_tasks_ne p q t (ne_of_mem_erase hq)]
  have hnew := sum_erase_add (range m.ntasks) (fun q => f ((m.setTask p t).tasks q)) hmem
  have hold := sum_erase_add (range m.ntasks) (fun q => f (m.tasks q)) hmem
  simp only [m.setTask_tasks_self, hrest] at hnew
  simp only [total, Machine.setTask_ntasks]
  omega

theorem total_congr {f : Task → ℕ} (hn : m'.ntasks = m.ntasks)
    (h : ∀ q, f (m'.tasks q) = f (m.tasks q)) : total f m' = total f m := by
  rw [total, total, hn]
  exact sum_congr rfl fun q _ => h q

/-- What a step that writes `b` bytes, serves `r` waits and interrupts `i` of them does to the
books. -/
structure Books (m m' : Machine) (b r i : ℕ) : Prop where
  tokens : m'.tokens + r = m.tokens + b
  posts : total posts m' + b = total posts m
  waits : total waits m' + (r + i) = total waits m

theorem Aside.books (h : Aside m m') : Books m m' 0 0 0 :=
  ⟨h.tokens, total_congr h.ntasks fun q => (h.task q).posts,
    total_congr h.ntasks fun q => (h.task q).waits⟩

/-- The record of the task that makes the step loses what is booked; the rest leaves the pipe
aside. -/
theorem Books.setTask {n b r i : ℕ} (hp : p < m.ntasks) (htokens : n + r = m.tokens + b)
    (hposts : Pipe.posts t + b = Pipe.posts (m.tasks p))
    (hwaits : Pipe.waits t + (r + i) = Pipe.waits (m.tasks p))
    (haside : Aside ((m.setTask p t).setTokens n) m') : Books m m' b r i := by
  have hpost := total_setTask (f := Pipe.posts) (t := t) hp
  have hwait := total_setTask (f := Pipe.waits) (t := t) hp
  obtain ⟨htok', hpost', hwait'⟩ := haside.books
  have hpost₁ : total Pipe.posts ((m.setTask p t).setTokens n) =
      total Pipe.posts (m.setTask p t) := rfl
  have hwait₁ : total Pipe.waits ((m.setTask p t).setTokens n) =
      total Pipe.waits (m.setTask p t) := rfl
  have htok₁ : ((m.setTask p t).setTokens n).tokens = n := rfl
  exact ⟨by omega, by omega, by omega⟩

variable {base : CliView} {s s' : Session} {prog : List Op} {o : Op} {x : Choice}

end KStep.Pipe
