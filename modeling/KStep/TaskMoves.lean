import KStep.Coherence
import Mathlib.Logic.Relation

/-!
# A task's record, move by move

Whatever the CPUs and the controller do, a task's record changes by a few moves: it is taken to
another queue, let out of its halt, roused from its sleep, and goes around the loop of `task_main`,
where an action comes out of the ring, is handed to the task and is performed. What every move
keeps, every step of the machine keeps, for each task on its own.
-/

namespace KStep

open RingQueue Relation

/-- The action a task has been handed and not yet performed. -/
def Place.handed : Place → List Ctrl
  | .user (some a) | .ret (some a) => [a]
  | _ => []

/-- What has been asked of a task and is not yet performed, oldest first. -/
def Task.pending (t : Task) : List Ctrl := t.place.handed ++ t.ring.contents kstepCtrlQueue

/-- Where the syscall of an action leaves the task. -/
def Ctrl.outcomes : Ctrl → List Place
  | .exit => [.dead]
  | .pause => [.asleep .pause, .ret none]
  | .block => [.asleep .block, .ret none]
  | .chanRead => [.asleep .chanRead, .ret none]
  | .chanWrite | .yield => [.ret none]
  | .park => []

inductive Move (t : Task) : Task → Prop
  | relocate (loc : Loc) : Move t { t with loc := loc }
  | interrupt (h : t.place = .halt) : Move t { t with place := .leaving }
  | rouse {s : Sleep} {place : Place} (h : t.place = .asleep s)
      (hplace : place = .reader ∨ place = .ret none) : Move t { t with place := place }
  | leave (h : t.place = .leaving) : Move t { t with settled := false, place := .ret none }
  | handle {next : Option Ctrl} (h : t.place = .ret next) : Move t { t with sig := false }
  | resume {next : Option Ctrl} (h : t.place = .ret next) : Move t { t with place := .user next }
  | trap {next : Option Ctrl} (h : t.place = .user next) : Move t { t with place := .ret next }
  | take {a : Ctrl} {ring : Buffer Ctrl} (h : t.place = .user none)
      (htake : t.ring.take kstepCtrlQueue = some (a, ring)) :
      Move t { t with ring := ring, place := .ret (some a) }
  | park {ring : Buffer Ctrl} {place : Place} (h : t.place = .user none)
      (htake : t.ring.take kstepCtrlQueue = some (.park, ring))
      (hplace : place = .asleep .park ∨ place = .ret none) :
      Move t { t with ring := ring, place := place }
  | perform {a : Ctrl} {place : Place} (h : t.place = .user (some a))
      (hplace : place ∈ a.outcomes) : Move t { t with place := place }
  | look {place : Place} (h : t.place = .reader)
      (hplace : place = .asleep .chanRead ∨ place = .ret none) : Move t { t with place := place }

/-- Every record has changed by moves. -/
def Machine.Moves (m m' : Machine) : Prop := ∀ q, ReflTransGen Move (m.tasks q) (m'.tasks q)

namespace Machine.Moves

variable {m m' m'' : Machine} {c p q : ℕ} {t t' : Task} {k : Pick}

theorem refl (m : Machine) : m.Moves m := fun _ => ReflTransGen.refl

theorem trans (h : m.Moves m') (h' : m'.Moves m'') : m.Moves m'' := fun q => (h q).trans (h' q)

theorem setTask (h : ReflTransGen Move (m.tasks p) t) : m.Moves (m.setTask p t) := by
  intro q
  by_cases hq : q = p
  · rw [hq, setTask_tasks_self]
    exact h
  · rw [setTask_tasks_ne m p q t hq]

theorem setLoc {loc : Loc} : m.Moves (m.setTask p { m.tasks p with loc := loc }) :=
  setTask (ReflTransGen.single (Move.relocate loc))

/-- A record that is changed and put away at the same time. -/
theorem setTask_relocated {loc : Loc} (h : Move (m.tasks p) t) :
    m.Moves (m.setTask p { t with loc := loc }) :=
  setTask ((ReflTransGen.single h).tail (Move.relocate loc))

theorem interrupt (m : Machine) (c : ℕ) : m.Moves (m.interrupt c) := by
  rcases m.interrupt_cases c with heq | ⟨p, -, hhalt, heq⟩
  · rw [heq]
    exact refl m
  · rw [heq]
    exact setTask (ReflTransGen.single (Move.interrupt hhalt))

theorem enqueue (m : Machine) (q c : ℕ) (b : Bool) : m.Moves (m.enqueue q c b) := by
  rcases m.enqueue_cases q c b with ⟨heq, -⟩ | heq
  · rw [heq]
    exact setLoc
  · rw [heq]
    have hset : m.Moves ((m.setTask q { m.tasks q with loc := .queued c }).setResched c true) :=
      setLoc
    exact hset.trans (interrupt _ c)

theorem pick (h : m.pick c k = some m') : m.Moves m' := by
  rcases pick_cases h with ⟨-, rfl⟩ | ⟨q, d, -, -, rfl⟩
  · exact refl m
  · exact setLoc

theorem wake {w : Wake} (h : m.wake w = some m') : m.Moves m' := by
  obtain ⟨s, place, -, hs, hplace, hcase⟩ := wake_cases h
  rcases hcase with ⟨-, rfl⟩ | ⟨-, rfl⟩
  · exact setTask_relocated (Move.rouse hs hplace)
  · exact (setTask (ReflTransGen.single (Move.rouse hs hplace))).trans (enqueue _ _ _ _)

theorem setTokens {n : ℕ} : m.Moves (m.setTokens n) := fun _ => ReflTransGen.refl

/-- The current task's record changes by a move and it sleeps or goes on. -/
theorem sleepIn {s : Sleep} (hawake : Move (m.tasks p) { m.tasks p with place := .ret none })
    (hasleep : Move (m.tasks p) { m.tasks p with place := .asleep s })
    (h : m.sleepIn c p s k = some m') : m.Moves m' := by
  simp only [Machine.sleepIn] at h
  split_ifs at h
  · cases h
    exact setTask (ReflTransGen.single hawake)
  · exact (setTask_relocated hasleep).trans (pick h)

theorem wakeReader {w : Option Wake} (h : m.wakeReader w = some m') : m.Moves m' := by
  cases w with
  | none =>
      cases h
      exact refl m
  | some w =>
      simp only [Machine.wakeReader] at h
      split_ifs at h
      exact wake h

theorem pipeRead {w : Option Wake}
    (hawake : Move (m.tasks p) { m.tasks p with place := .ret none })
    (hasleep : Move (m.tasks p) { m.tasks p with place := .asleep .chanRead })
    (h : m.pipeRead c p k w = some m') : m.Moves m' := by
  simp only [Machine.pipeRead] at h
  split_ifs at h
  · exact ((setTask (ReflTransGen.single hawake)).trans setTokens).trans (wakeReader h)
  · exact sleepIn hawake hasleep h

theorem perform {a : Ctrl} {w : Option Wake} (hplace : (m.tasks p).place = .user (some a))
    (h : m.perform c p a k w = some m') : m.Moves m' := by
  have hmove {place : Place} (hmem : place ∈ a.outcomes) :
      Move (m.tasks p) { m.tasks p with place := place } := Move.perform hplace hmem
  have haway {place : Place} (loc : Loc) (hmem : place ∈ a.outcomes) :
      m.Moves (m.setTask p { m.tasks p with place := place, loc := loc }) :=
    setTask_relocated (hmove hmem)
  cases a with
  | exit => exact (haway .off (List.mem_singleton.mpr rfl)).trans (pick h)
  | pause => exact sleepIn (hmove (by decide)) (hmove (by decide)) h
  | block => exact sleepIn (hmove (by decide)) (hmove (by decide)) h
  | chanRead => exact pipeRead (hmove (by decide)) (hmove (by decide)) h
  | chanWrite =>
      exact ((setTask (ReflTransGen.single (hmove (by decide)))).trans setTokens).trans
        (wakeReader h)
  | yield => exact (haway (.queued c) (List.mem_singleton.mpr rfl)).trans (pick h)
  | park => cases h

theorem ctrlRead (hplace : (m.tasks p).place = .user none)
    (hsome : ((m.tasks p).ring.take kstepCtrlQueue).isSome) (h : m.ctrlRead c p k = some m') :
    m.Moves m' := by
  simp only [Machine.ctrlRead] at h
  split at h
  next ring htake =>
    simp only [Machine.sleepIn, setTask_tasks_self, setTask_setTask] at h
    split_ifs at h
    · cases h
      exact setTask (ReflTransGen.single (Move.park hplace htake (Or.inr rfl)))
    · have hasleep := Move.park hplace htake (Or.inl rfl)
      exact Moves.trans (setTask_relocated hasleep) (pick h)
  next a ring _ htake =>
    cases h
    exact setTask (ReflTransGen.single (Move.take hplace htake))
  next htake =>
    rw [htake] at hsome
    cases hsome

end Machine.Moves

def Act.takesNothing (m : Machine) : Act → Bool
  | .read p _ => ((m.tasks p).ring.take kstepCtrlQueue).isNone
  | _ => false

variable {m m' : Machine} {a : Act} {c p : ℕ}

theorem taskStep_moves (hread : a.actor = some p ∨ ∃ k, a = .schedule k)
    (hnot : a.takesNothing m = false) (h : taskStep m c p a = some m') : m.Moves m' := by
  simp only [taskStep] at h
  split at h
  next hplace =>
    cases h
    exact Machine.Moves.setTask (ReflTransGen.single (Move.leave hplace))
  next hplace =>
    split_ifs at h
    cases h
    exact Machine.Moves.setTask (ReflTransGen.single (Move.handle hplace))
  next hplace =>
    split_ifs at h
    cases h
    exact Machine.Moves.setTask (ReflTransGen.single (Move.resume hplace))
  next hplace =>
    split_ifs at h
    cases h
    exact Machine.Moves.setTask (ReflTransGen.single (Move.trap hplace))
  next q k hplace =>
    rcases hread with hactor | ⟨k, hk⟩
    · cases hactor
      refine Machine.Moves.ctrlRead hplace ?_ h
      simpa [Act.takesNothing] using hnot
    · cases hk
  next hplace => exact Machine.Moves.perform hplace h
  next hplace =>
    exact Machine.Moves.pipeRead (Move.look hplace (Or.inr rfl)) (Move.look hplace (Or.inl rfl)) h
  next hplace =>
    split_ifs at h
    exact Machine.Moves.setLoc.trans (Machine.Moves.pick h)
  next => cases h

/-- A step of a CPU, other than a read that takes nothing, changes every record by moves. -/
theorem cpuStep_moves (hnot : a.takesNothing m = false) (h : cpuStep m c a = some m') :
    m.Moves m' := by
  unfold cpuStep at h
  by_cases hc : m.isTestCpu c = true
  · rw [if_pos hc] at h
    split at h
    next q b =>
      split_ifs at h
      cases h
      exact (Machine.Moves.enqueue m q c b).trans (Machine.Moves.interrupt _ c)
    next k =>
      split at h
      · split_ifs at h
        exact Machine.Moves.pick h
      · exact taskStep_moves (Or.inr ⟨k, rfl⟩) hnot h
    next =>
      split at h
      next q q' _ hactor =>
        split_ifs at h with hq
        exact taskStep_moves (Or.inl (hq ▸ hactor)) hnot h
      next => cases h
  · rw [if_neg hc] at h
    cases h

theorem schedTick_moves {x : Choice} (h : m.schedTick c x = some m') : m.Moves m' := by
  obtain ⟨n, hfold, rfl⟩ := Option.map_eq_some_iff.mp h
  rw [Runs.foldlM_eq_run] at hfold
  refine Machine.Moves.trans ?_ (Machine.Moves.interrupt n c)
  refine Runs.run_invariant (I := fun n => m.Moves n) (fun u w v hstep hI => ?_) hfold ?_
  · obtain ⟨-, rfl⟩ := migrate_cases hstep
    exact hI.trans (Machine.Moves.enqueue u w.task w.cpu w.preempt)
  · split_ifs
    · exact fun _ => ReflTransGen.refl
    · exact Machine.Moves.refl m

theorem letOut_moves : m.Moves (m.letOut p) := by
  unfold Machine.letOut
  split
  · exact Machine.Moves.interrupt m _
  · exact Machine.Moves.refl m

/-- A signal is left pending, and whoever slept or halted is let go. -/
theorem sendSig_moves {x : Choice} (h : m.sendSig p x = some m') :
    (m.setTask p { m.tasks p with sig := true }).Moves m' := by
  simp only [Machine.sendSig] at h
  split at h
  · split_ifs at h
    exact Machine.Moves.wake h
  · cases h
    exact Machine.Moves.interrupt _ _
  · cases h
    exact Machine.Moves.refl _

end KStep
