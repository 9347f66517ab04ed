import KStep.QueueOverrun
import KStep.TaskMoves

/-!
# The tasks' pipe

The tasks synchronise through one pipe: a post leaves a byte in it and a wait takes one out, asleep
in the pipe's read until there is one. `PipeMove` says what a step of a CPU can do to it: write a
byte, look for one, or leave it aside, and then no task's posts and waits change and none falls
asleep in the pipe's read or comes to its look.
-/

namespace KStep.Pipe

open RingQueue Runs

/-- Asleep in the channel's read, or woken there and about to look for a byte. -/
def inRead : Place → Bool
  | .asleep .chanRead | .reader => true
  | _ => false

def queued (a : Ctrl) (t : Task) : ℕ := (t.ring.contents kstepCtrlQueue).count a

def posts (t : Task) : ℕ := t.pending.count .chanWrite

def waits (t : Task) : ℕ := t.pending.count .chanRead + if inRead t.place then 1 else 0

theorem posts_eq (t : Task) : posts t = t.place.handed.count .chanWrite + queued .chanWrite t :=
  List.count_append

theorem waits_eq (t : Task) : waits t =
    t.place.handed.count .chanRead + queued .chanRead t + if inRead t.place then 1 else 0 := by
  rw [waits, Task.pending, List.count_append]
  rfl

/-- A task about to look for a byte runs, waits for a CPU or is on its way to one. -/
def Seated (t : Task) : Prop := t.place = .reader → t.loc ≠ .off

/-- A record's change that is none of the pipe's. -/
structure Apart (t t' : Task) : Prop where
  posts : posts t' = posts t
  waits : waits t' = waits t
  asleep : t'.place = .asleep .chanRead → t.place = .asleep .chanRead
  reader : t.place = .reader → t'.place = .reader
  seated : Seated t → Seated t'

/-- The pipe is left aside: it has the same bytes, and every record's change is none of its. -/
structure Aside (m m' : Machine) : Prop where
  ntasks : m'.ntasks = m.ntasks
  tokens : m'.tokens = m.tokens
  task : ∀ q, Apart (m.tasks q) (m'.tasks q)

variable {m m' m'' : Machine} {t t' t'' : Task} {c p q : ℕ} {k : Pick} {w : Option Wake} {a : Ctrl}

namespace Apart

theorem refl (t : Task) : Apart t t := ⟨rfl, rfl, id, id, id⟩

theorem trans (h : Apart t t') (h' : Apart t' t'') : Apart t t'' :=
  ⟨h'.posts.trans h.posts, h'.waits.trans h.waits, fun hs => h.asleep (h'.asleep hs),
    fun hr => h'.reader (h.reader hr), fun ht => h'.seated (h.seated ht)⟩

/-- A task that has nothing of the pipe's in hand, before or after, and goes elsewhere. -/
theorem elsewhere (hring : t'.ring = t.ring) (hhand : ∀ b ∈ t.place.handed, b ≠ .chanWrite ∧
    b ≠ .chanRead) (hin : inRead t.place = false) (hhanded : t'.place.handed = [])
    (hin' : inRead t'.place = false) : Apart t t' := by
  have hnone {b : Ctrl} (hb : ∀ b' ∈ t.place.handed, b' ≠ b) : t.place.handed.count b = 0 :=
    List.count_eq_zero.mpr fun hmem => hb b hmem rfl
  refine ⟨?_, ?_, fun hs => ?_, fun hr => ?_, fun _ hr => ?_⟩
  · rw [posts_eq, posts_eq, hhanded, hnone fun b hb => (hhand b hb).1, queued, queued, hring]
    rfl
  · rw [waits_eq, waits_eq, hhanded, hnone fun b hb => (hhand b hb).2, queued, queued, hring, hin,
      hin']
    rfl
  · rw [hs] at hin'
    cases hin'
  · rw [hr] at hin
    cases hin
  · rw [hr] at hin'
    cases hin'

/-- A task that keeps what it has in hand and is not in the channel's read. -/
theorem keeps (hring : t'.ring = t.ring) (hhanded : t'.place.handed = t.place.handed)
    (hin : inRead t.place = false) (hin' : inRead t'.place = false) : Apart t t' := by
  refine ⟨?_, ?_, fun hs => ?_, fun hr => ?_, fun _ hr => ?_⟩
  · rw [posts_eq, posts_eq, hhanded, queued, queued, hring]
  · rw [waits_eq, waits_eq, hhanded, queued, queued, hring, hin, hin']
  · rw [hs] at hin'
    cases hin'
  · rw [hr] at hin
    cases hin
  · rw [hr] at hin'
    cases hin'

theorem setLoc {loc : Loc} (hloc : loc ≠ .off) : Apart t { t with loc := loc } :=
  ⟨rfl, rfl, id, id, fun _ _ => hloc⟩

theorem setSig {b : Bool} : Apart t { t with sig := b } := ⟨rfl, rfl, id, id, id⟩

end Apart

def woken (t : Task) (s : Sleep) : Task :=
  { t with place := if s = .chanRead then .reader else .ret none }

theorem wake_woken {v : Wake} (h : m.wake v = some m') : v.task < m.ntasks ∧
    ∃ s, (m.tasks v.task).place = .asleep s ∧
      (m' = m.setTask v.task { woken (m.tasks v.task) s with loc := .waking v.cpu } ∨
        m' = (m.setTask v.task (woken (m.tasks v.task) s)).enqueue v.task v.cpu v.preempt) := by
  unfold Machine.wake at h
  by_cases hv : (decide (v.task < m.ntasks) && m.isTestCpu v.cpu) = true
  · rw [if_pos hv] at h
    simp only [Bool.and_eq_true, decide_eq_true_eq] at hv
    split at h
    · rename_i s hs
      refine ⟨hv.1, s, hs, ?_⟩
      by_cases hremote : v.remote = true
      · rw [if_pos hremote] at h
        exact Or.inl (Option.some.inj h).symm
      · rw [if_neg hremote] at h
        exact Or.inr (Option.some.inj h).symm
    · cases h
  · rw [if_neg hv] at h
    cases h

/-- A sleeper that is woken is still in the channel's read if that is where it slept. -/
theorem woken_apart {s : Sleep} {loc : Loc} (hs : t.place = .asleep s) (hloc : loc ≠ .off) :
    Apart t { woken t s with loc := loc } := by
  refine ⟨?_, ?_, ?_, by simp [hs], fun _ _ => hloc⟩
  · cases s <;> simp [posts_eq, queued, woken, hs, Place.handed]
  · cases s <;> simp [waits_eq, queued, woken, hs, Place.handed, inRead]
  · cases s <;> simp [woken]

namespace Aside

theorem refl (m : Machine) : Aside m m := ⟨rfl, rfl, fun _ => Apart.refl _⟩

theorem trans (h : Aside m m') (h' : Aside m' m'') : Aside m m'' :=
  ⟨h'.ntasks.trans h.ntasks, h'.tokens.trans h.tokens, fun q => (h.task q).trans (h'.task q)⟩

theorem setTask (h : Apart (m.tasks p) t) : Aside m (m.setTask p t) := by
  refine ⟨rfl, rfl, fun q => ?_⟩
  by_cases hq : q = p
  · rw [hq, m.setTask_tasks_self]
    exact h
  · rw [m.setTask_tasks_ne p q t hq]
    exact Apart.refl _

theorem setResched {b : Bool} : Aside m (m.setResched c b) := ⟨rfl, rfl, fun _ => Apart.refl _⟩

theorem setCurr {o : Option ℕ} : Aside m (m.setCurr c o) := ⟨rfl, rfl, fun _ => Apart.refl _⟩

theorem interrupt : Aside m (m.interrupt c) := by
  rcases m.interrupt_cases c with h | ⟨p, -, hhalt, h⟩
  · rw [h]
    exact refl m
  · rw [h]
    exact setTask (Apart.keeps rfl (by rw [hhalt]; rfl) (by rw [hhalt]; rfl) rfl)

/-- A task whose record changes is put on a queue. -/
theorem enqueue_setTask {b : Bool} (h : Apart (m.tasks p) { t with loc := .queued c }) :
    Aside m ((m.setTask p t).enqueue p c b) := by
  have hset : Aside m ((m.setTask p t).setTask p
      { (m.setTask p t).tasks p with loc := .queued c }) := by
    rw [m.setTask_tasks_self, m.setTask_setTask]
    exact setTask h
  rcases (m.setTask p t).enqueue_cases p c b with ⟨heq, -⟩ | heq
  · rw [heq]
    exact hset
  · rw [heq]
    exact (hset.trans setResched).trans interrupt

theorem enqueue {b : Bool} : Aside m (m.enqueue p c b) := by
  have hset : Apart (m.tasks p) { m.tasks p with loc := .queued c } := Apart.setLoc (by simp)
  have h := enqueue_setTask (m := m) (t := m.tasks p) (b := b) hset
  rw [m.setTask_self] at h
  exact h

theorem pick (h : m.pick c k = some m') : Aside m m' := by
  rcases Machine.pick_cases h with ⟨-, rfl⟩ | ⟨q, d, -, -, rfl⟩
  · exact setCurr.trans setResched
  · exact ((setTask (Apart.setLoc (by simp))).trans setCurr).trans setResched

/-- The current task is put away for another. -/
theorem putAway (h : (m.setTask p t).pick c k = some m') (ht : Apart (m.tasks p) t) :
    Aside m m' :=
  (setTask ht).trans (pick h)

theorem wake {v : Wake} (h : m.wake v = some m') : Aside m m' := by
  obtain ⟨-, s, hs, hcase⟩ := wake_woken h
  rcases hcase with rfl | rfl
  · exact setTask (woken_apart hs (by simp))
  · exact enqueue_setTask (woken_apart hs (by simp))

theorem wakeReader (h : m.wakeReader w = some m') : Aside m m' := by
  cases w with
  | none =>
      cases h
      exact refl m
  | some v =>
      simp only [Machine.wakeReader] at h
      split_ifs at h
      exact wake h

theorem schedTick {x : Choice} (h : m.schedTick c x = some m') : Aside m m' := by
  obtain ⟨n, hfold, rfl⟩ := Option.map_eq_some_iff.mp h
  rw [foldlM_eq_run] at hfold
  have hmoved : Aside m n := by
    refine run_invariant (I := fun n => Aside m n) ?_ hfold ?_
    · intro u v n' hstep hu
      obtain ⟨-, rfl⟩ := migrate_cases hstep
      exact hu.trans enqueue
    · split_ifs
      · exact setResched
      · exact refl m
  exact hmoved.trans interrupt

theorem sendSig {x : Choice} (h : m.sendSig p x = some m') : Aside m m' := by
  have hset : Aside m (m.setTask p { m.tasks p with sig := true }) := setTask Apart.setSig
  simp only [Machine.sendSig] at h
  split at h
  · split_ifs at h
    exact hset.trans (wake h)
  · cases h
    exact hset.trans interrupt
  · cases h
    exact hset

theorem letOut : Aside m (m.letOut p) := by
  unfold Machine.letOut
  split
  · exact interrupt
  · exact refl m

/-- A sleep that is not the channel's, of a task with nothing of the pipe's in hand. -/
theorem sleepIn {s : Sleep} (hs : s ≠ .chanRead) (hhand : ∀ b ∈ (m.tasks p).place.handed,
    b ≠ .chanWrite ∧ b ≠ .chanRead) (hin : inRead (m.tasks p).place = false)
    (h : m.sleepIn c p s k = some m') : Aside m m' := by
  simp only [Machine.sleepIn] at h
  split_ifs at h
  · cases h
    exact setTask (Apart.elsewhere rfl hhand hin rfl rfl)
  · refine putAway h (Apart.elsewhere rfl hhand hin rfl ?_)
    cases s <;> first | rfl | exact absurd rfl hs

/-- A control read moves an action from the queue to the task's hand. -/
theorem ctrlRead (hplace : (m.tasks p).place = .user none) (h : m.ctrlRead c p k = some m') :
    Aside m m' := by
  have hin : inRead (m.tasks p).place = false := by rw [hplace]; rfl
  have hhand : ∀ b ∈ (m.tasks p).place.handed, b ≠ .chanWrite ∧ b ≠ .chanRead := by
    rw [hplace]
    exact fun b hb => absurd hb List.not_mem_nil
  simp only [Machine.ctrlRead] at h
  split at h
  next ring htake =>
    have hcontents := Buffer.contents_take htake
    have hread : Aside m (m.setTask p { m.tasks p with ring := ring }) := by
      refine setTask ⟨?_, ?_, id, id, id⟩
      · simp [posts_eq, queued, hcontents]
      · simp [waits_eq, queued, hcontents]
    refine hread.trans (sleepIn (by decide) ?_ ?_ h)
    · rw [m.setTask_tasks_self]
      exact hhand
    · rw [m.setTask_tasks_self]
      exact hin
  next a ring _ htake =>
    cases h
    have hcontents := Buffer.contents_take htake
    refine setTask ⟨?_, ?_, by simp, by simp [hplace], by simp [Seated]⟩
    · simp [posts_eq, queued, hplace, Place.handed, hcontents, List.count_cons, Nat.add_comm]
    · simp [waits_eq, queued, hplace, Place.handed, hcontents, List.count_cons, inRead,
        Nat.add_comm]
  next htake =>
    split_ifs at h
    · cases h
      exact setTask (Apart.elsewhere rfl hhand hin rfl rfl)
    · cases h
      exact setTask (Apart.elsewhere rfl hhand hin rfl rfl)

end Aside

variable {act : Act}

end KStep.Pipe
