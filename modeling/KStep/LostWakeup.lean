import KStep.WindowSeats

/-!
# A wakeup and the pause before it

A pause goes through the task's queue and a wakeup is a signal. A wakeup that finds the pause
performed returns the task from it, and the task does not sleep again until the next such ask. One
that is sent while the pause still waits, because the task waits for its CPU, is handled before the
pause is taken, and the task sleeps.
-/

namespace KStep

open RingQueue Runs Relation

def Ctrl.untilWakeup : Ctrl → Bool
  | .pause | .block => true
  | _ => false

def Place.paused : Place → Bool
  | .asleep .pause | .asleep .block => true
  | _ => false

def Task.performed (t : Task) : Bool := t.pending.all fun a => !a.untilWakeup

/-- The task neither sleeps in a pause or block nor is about to. -/
structure Task.Free (t : Task) : Prop where
  performed : t.performed = true
  awake : t.place.paused = false

def asksSleep (p : ℕ) : FineLabel → Bool
  | .op (.put q a) _ => q == p && a.untilWakeup
  | _ => false

def verbTo (p : ℕ) : FineLabel → Bool
  | .op (.put q _) _ | .op (.signal q) _ => q == p
  | _ => false

variable {m m' : Machine} {t t' : Task} {c p q : ℕ} {x : Choice}

theorem performed_iff : t.performed = true ↔ ∀ a ∈ t.pending, a.untilWakeup = false := by
  simp [Task.performed]

/-- What is pending shrinks, and the task is not put to sleep. -/
theorem Task.Free.of_subset (ht : t.Free) (hsub : ∀ a ∈ t'.pending, a ∈ t.pending)
    (hawake : t'.place.paused = false) : t'.Free :=
  ⟨performed_iff.mpr fun a ha => performed_iff.mp ht.performed a (hsub a ha), hawake⟩

theorem outcomes_awake {a : Ctrl} {place : Place} (ha : a.untilWakeup = false)
    (h : place ∈ a.outcomes) : place.paused = false ∧ place.handed = [] := by
  cases a with
  | pause => cases ha
  | block => cases ha
  | chanRead =>
      rcases List.mem_cons.mp h with rfl | h
      · exact ⟨rfl, rfl⟩
      · rw [List.mem_singleton.mp h]
        exact ⟨rfl, rfl⟩
  | park => cases h
  | _ =>
      rw [List.mem_singleton.mp h]
      exact ⟨rfl, rfl⟩

/-- A task that is free stays so on its own. -/
theorem Move.free (h : Move t t') (ht : t.Free) : t'.Free := by
  have hsame {place : Place} (hhanded : place.handed = t.place.handed)
      (hawake : place.paused = false) : Task.Free { t with place := place } :=
    ht.of_subset (by simp [Task.pending, hhanded]) hawake
  cases h with
  | relocate loc => exact ⟨ht.performed, ht.awake⟩
  | interrupt h => exact hsame (by rw [h]; rfl) rfl
  | rouse h hplace =>
      rcases hplace with rfl | rfl
      · exact hsame (by rw [h]; rfl) rfl
      · exact hsame (by rw [h]; rfl) rfl
  | leave h =>
      have hret : Task.Free { t with place := .ret none } := hsame (by rw [h]; rfl) rfl
      exact ⟨hret.performed, hret.awake⟩
  | handle h => exact ⟨ht.performed, ht.awake⟩
  | @resume next h => exact hsame (by rw [h]; cases next <;> rfl) rfl
  | @trap next h => exact hsame (by rw [h]; cases next <;> rfl) rfl
  | take h htake =>
      refine ht.of_subset ?_ rfl
      simp [Task.pending, h, Buffer.contents_take htake, Place.handed]
  | @park ring place h htake hplace =>
      have hsub (b : Ctrl) (hb : b ∈ ring.contents kstepCtrlQueue) : b ∈ t.pending := by
        rw [Task.pending, Buffer.contents_take htake]
        exact List.mem_append_right _ (List.mem_cons_of_mem _ hb)
      rcases hplace with rfl | rfl
      · exact ht.of_subset hsub rfl
      · exact ht.of_subset hsub rfl
  | @perform a place h hplace =>
      have ha : a.untilWakeup = false :=
        performed_iff.mp ht.performed a (by simp [Task.pending, h, Place.handed])
      obtain ⟨hawake, hhanded⟩ := outcomes_awake ha hplace
      refine ht.of_subset (fun b hb => ?_) hawake
      rw [Task.pending, hhanded, List.nil_append] at hb
      exact List.mem_append_right _ hb
  | look h hplace =>
      rcases hplace with rfl | rfl
      · exact hsame (by rw [h]; rfl) rfl
      · exact hsame (by rw [h]; rfl) rfl

theorem Machine.Moves.free (h : m.Moves m') (hm : (m.tasks q).Free) : (m'.tasks q).Free := by
  have hall : ∀ {t t' : Task}, ReflTransGen Move t t' → t.Free → t'.Free := by
    intro t t' hmoves ht
    induction hmoves with
    | refl => exact ht
    | tail _ hmove ih => exact hmove.free ih
  exact hall (h q) hm

/-- A signal to whoever leaves the others as they are. -/
theorem sendSig_free (hm : (m.tasks q).Free) (h : m.sendSig p x = some m') :
    (m'.tasks q).Free := by
  refine (sendSig_moves h).free ?_
  by_cases hqp : q = p
  · rw [hqp, Machine.setTask_tasks_self, ← hqp]
    exact ⟨hm.performed, hm.awake⟩
  · rw [Machine.setTask_tasks_ne _ _ _ _ hqp]
    exact hm

/-- A signal that finds every pause and block performed frees its task. -/
theorem sendSig_frees (hdone : (m.tasks p).performed = true) (h : m.sendSig p x = some m') :
    (m'.tasks p).Free := by
  by_cases hawake : (m.tasks p).place.paused = false
  · exact sendSig_free ⟨hdone, hawake⟩ h
  have hasleep : ∃ s, (m.tasks p).place = .asleep s := by
    cases hplace : (m.tasks p).place with
    | asleep s => exact ⟨s, rfl⟩
    | _ =>
        rw [hplace] at hawake
        exact absurd rfl hawake
  obtain ⟨s, hs⟩ := hasleep
  simp only [Machine.sendSig, hs] at h
  split_ifs at h with hw
  obtain ⟨s', place, -, -, hplace, hcase⟩ := Machine.wake_cases h
  have hfree (loc : Loc) :
      Task.Free { m.tasks p with sig := true, place := place, loc := loc } := by
    rw [Task.performed, Task.pending, hs] at hdone
    rcases hplace with rfl | rfl
    · exact ⟨hdone, rfl⟩
    · exact ⟨hdone, rfl⟩
  rw [hw, Machine.setTask_tasks_self, Machine.setTask_setTask, Machine.setTask_setTask] at hcase
  rcases hcase with ⟨-, rfl⟩ | ⟨-, rfl⟩
  · rw [Machine.setTask_tasks_self]
    exact hfree _
  · refine (Machine.Moves.enqueue _ _ _ _).free ?_
    rw [Machine.setTask_tasks_self]
    exact hfree _

theorem execOp_free {s s' : Session} {o : Op} (ho : asksSleep p (.op o x) = false)
    (h : execOp s o x = some s') (hs : (s.machine.tasks p).Free) : (s'.machine.tasks p).Free := by
  have hparked : parkedTask.Free := ⟨rfl, rfl⟩
  cases (execOp_move h).2 with
  | @put q a ring hput =>
      by_cases hpq : p = q
      · subst hpq
        simp only [asksSleep, beq_self_eq_true, Bool.true_and] at ho
        have hcontents := Buffer.contents_put (by decide) (by decide) hput
        rw [Machine.setTask_tasks_self]
        refine ⟨performed_iff.mpr fun b hb => ?_, hs.awake⟩
        rw [Task.pending, hcontents, ← List.append_assoc, List.mem_append,
          List.mem_singleton] at hb
        rcases hb with hb | rfl
        · exact performed_iff.mp hs.performed b hb
        · exact ho
      · rw [Machine.setTask_tasks_ne _ _ _ _ hpq]
        exact hs
  | overrun hfull => exact hs
  | letOut => exact letOut_moves.free hs
  | signal hsig => exact sendSig_free hs hsig
  | call htick => exact (schedTick_moves htick).free hs
  | poll hsettled => exact hs
  | create hroom =>
      by_cases hp : p = s.machine.ntasks
      · simp only [Machine.create, hp, Machine.setTask_tasks_self]
        exact hparked
      · simp only [Machine.create, Machine.setTask_tasks_ne _ _ _ _ hp]
        exact hs

theorem fineEnv_free {s s' : Fine} {e : FineAct} (h : fineEnv s (c, e) = some s')
    (hs : (s.session.machine.tasks p).Free) : (s'.session.machine.tasks p).Free := by
  rcases fineEnv_cases h with ⟨q, -, -, -, rfl⟩ | ⟨a, m', -, -, hstep, rfl⟩
  · obtain ⟨settled, place, hplace, heq⟩ := checkHalt_cases s.session.machine c q
    simp only [heq]
    by_cases hpq : p = q
    · rw [hpq, Machine.setTask_tasks_self, ← hpq]
      rcases hplace with ⟨-, rfl⟩ | ⟨-, rfl⟩
      · exact hs.of_subset (fun b hb => List.mem_append_right _ hb) rfl
      · exact hs.of_subset (fun b hb => List.mem_append_right _ hb) rfl
    · rw [Machine.setTask_tasks_ne _ _ _ _ hpq]
      exact hs
  · unfold Fine.advance
    split_ifs with hnothing
    · exact hs
    · exact (cpuStep_moves (Bool.eq_false_iff.mpr hnothing) hstep).free hs

/-- Every step but an ask to pause or block keeps a free task free. -/
theorem fineStep_free {s s' : Fine × List Op} {e : FineLabel} (he : asksSleep p e = false)
    (h : fineStep s e = some s') (hs : (s.1.session.machine.tasks p).Free) :
    (s'.1.session.machine.tasks p).Free := by
  rcases interleave_cases h with ⟨o, y, rfl, -, hop⟩ | ⟨⟨c, e⟩, -, -, henv⟩
  · obtain ⟨u, hu, heq⟩ := Option.map_eq_some_iff.mp hop
    rw [← heq]
    exact execOp_free he hu hs
  · exact fineEnv_free henv hs

/-- In every session and every scheduling, a task woken when it has performed its pause or block is
not asleep in one, from then on until it is asked to pause or block again. -/
theorem wake_undoes_performed_pause (k : ℕ) (prog : List Op) (p : ℕ) (a : Ctrl) (x y : Choice)
    (l₁ l₂ l₃ : List FineLabel) (s₁ s₂ : Fine × List Op)
    (hpause : run fineStep (Fine.boot k, prog) (l₁ ++ .op (.put p a) x :: l₂) = some s₁)
    (hdone : (s₁.1.session.machine.tasks p).performed = true)
    (hwake : run fineStep (Fine.boot k, prog)
      ((l₁ ++ .op (.put p a) x :: l₂) ++ .op (.signal p) y :: l₃) = some s₂)
    (hafter : ∀ e ∈ l₃, asksSleep p e = false) :
    (s₂.1.session.machine.tasks p).place.paused = false := by
  rw [run_append hpause] at hwake
  obtain ⟨u, hsignal, hrun⟩ := run_cons hwake
  have hfree : (u.1.session.machine.tasks p).Free := by
    rcases interleave_cases hsignal with ⟨o, z, heq, -, hop⟩ | ⟨e, heq, -⟩
    · cases heq
      obtain ⟨s', hs', hu⟩ := Option.map_eq_some_iff.mp hop
      rw [← hu]
      cases (execOp_move hs').2 with
      | signal hsig => exact sendSig_frees hdone hsig
    · cases heq
  have hkeep := run_invariant_of_always (P := fun _ e => asksSleep p e = false)
    (I := fun s => (s.1.session.machine.tasks p).Free)
    (fun _ _ _ he hstep => fineStep_free he hstep) hrun
    (always_of_forall (fun e he _ => hafter e he) u) hfree
  exact hkeep.awake

/-- Two tasks on one CPU: one of them is asked to pause and is woken, then a tick comes. -/
def pauseAndWake (t : ℕ) : List Op :=
  .create :: kstepTaskWakeup 1 0 ++ .create :: kstepTaskWakeup 1 1 ++ kstepTaskCtrl 1 t .pause ++
    kstepTaskWakeup 1 t ++ kstepTick 1

def wakeOnto (p : ℕ) : Choice := ⟨⟨p, 1, false, false⟩, false, []⟩

def wakesAndHalts (p : ℕ) : List FineLabel :=
  [.env (1, .act (.handle p)), .env (1, .act (.resume p)), .env (1, .act (.read p .idle)),
    .env (1, .check p), .op (.poll 1) noChoice]

def bothUp : List FineLabel :=
  [.op .create noChoice, .op (.signal 0) (wakeOnto 0), .env (1, .act (.schedule (.task 0)))] ++
    wakesAndHalts 0 ++ [.op .create noChoice, .op (.signal 1) (wakeOnto 1), .op (.poll 1) noChoice]

/-- The task that halts is let out, takes its pause and sleeps; the other gets the CPU and halts. -/
def pausedInTurn : List FineLabel :=
  [.op (.letOut 0) noChoice, .env (1, .act (.leave 0)), .env (1, .act (.resume 0)),
    .env (1, .act (.read 0 .idle)), .env (1, .act (.resume 0)),
    .env (1, .act (.perform 0 (.task 1) none))] ++ wakesAndHalts 1

theorem wake_undoes_performed_pause_first_task : ∃ s₁ s₂ : Fine × List Op,
    run fineStep (Fine.boot 1, pauseAndWake 0)
      (bothUp ++ .op (.put 0 .pause) noChoice :: pausedInTurn) = some s₁ ∧
    (s₁.1.session.machine.tasks 0).place = .asleep .pause ∧
    run fineStep (Fine.boot 1, pauseAndWake 0)
      ((bothUp ++ .op (.put 0 .pause) noChoice :: pausedInTurn) ++
        .op (.signal 0) (wakeOnto 0) :: []) = some s₂ ∧
    (s₂.1.session.machine.tasks 0).place.paused = false := by
  refine ⟨_, _, rfl, rfl, rfl, ?_⟩
  exact wake_undoes_performed_pause 1 (pauseAndWake 0) 0 .pause noChoice (wakeOnto 0) bothUp
    pausedInTurn [] _ _ rfl (by decide) rfl (by simp)

/-- The tick gives the CPU to the task that was woken: it handles the signal, and then takes the
pause that was asked before. -/
def wakesThenPauses : List FineLabel :=
  [.op (.poll 1) noChoice, .op (.poll 1) noChoice, .op (.call 1) ⟨⟨0, 0, false, false⟩, true, []⟩,
    .env (1, .act (.leave 0)), .env (1, .act (.schedule (.task 1))), .env (1, .act (.handle 1)),
    .env (1, .act (.resume 1)), .env (1, .act (.read 1 .idle)), .env (1, .act (.resume 1)),
    .env (1, .act (.perform 1 (.task 0) none))]

theorem wake_lost : ¬ ∀ (k : ℕ) (prog : List Op) (p : ℕ) (a : Ctrl) (x y : Choice)
    (l₁ l₂ l₃ : List FineLabel) (s : Fine × List Op), a.untilWakeup = true →
    run fineStep (Fine.boot k, prog)
      ((l₁ ++ .op (.put p a) x :: l₂) ++ .op (.signal p) y :: l₃) = some s →
    l₂.all (fun e => !verbTo p e) = true → l₃.all (fun e => !verbTo p e) = true →
    (s.1.session.machine.tasks p).ring.contents kstepCtrlQueue = [] →
    (s.1.session.machine.tasks p).sig = false →
    (s.1.session.machine.tasks p).place.paused = false := by
  intro hholds
  have hawake := hholds 1 (pauseAndWake 1) 1 .pause noChoice noChoice bothUp
    [.op (.letOut 1) noChoice, .op (.poll 1) noChoice] wakesThenPauses _ rfl rfl (by decide)
    (by decide) (by decide) (by decide)
  revert hawake
  decide

end KStep
