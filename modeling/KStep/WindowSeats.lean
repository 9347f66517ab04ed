import KStep.HaltWindow

/-!
# What holds between the halves of a read

The controller's operations leave who runs where and a task in the middle of its read; the steps of
the CPUs leave a task that has taken nothing to its check. So in every state a session reaches, a
task in the window is the current one of its CPU, and so is a settled task.
-/

namespace KStep

open RingQueue Runs

variable {m m' : Machine} {a : Act} {c p q : ℕ}

/-- What the controller leaves as it is: who runs where, and a task about to read or reading; and
it settles no task. -/
structure KeepsSeats (m m' : Machine) : Prop where
  curr : m'.curr = m.curr
  user : ∀ q, (m.tasks q).place = .user none → (m'.tasks q).place = .user none
  settled : ∀ q, (m'.tasks q).settled = true → (m.tasks q).settled = true

namespace KeepsSeats

variable {m'' : Machine} {x : Choice}

theorem refl (m : Machine) : KeepsSeats m m := ⟨rfl, fun _ h => h, fun _ h => h⟩

theorem trans (h : KeepsSeats m m') (h' : KeepsSeats m' m'') : KeepsSeats m m'' :=
  ⟨h'.curr.trans h.curr, fun q hq => h'.user q (h.user q hq),
    fun q hq => h.settled q (h'.settled q hq)⟩

/-- A record changed in its queue or its signal. -/
theorem setTask {t : Task} (hplace : t.place = (m.tasks p).place)
    (hsettled : t.settled = (m.tasks p).settled) : KeepsSeats m (m.setTask p t) := by
  refine ⟨rfl, fun q hq => ?_, fun q hq => ?_⟩
  · by_cases hqp : q = p
    · rw [hqp, Machine.setTask_tasks_self, hplace, ← hqp]
      exact hq
    · rw [Machine.setTask_tasks_ne _ _ _ _ hqp]
      exact hq
  · by_cases hqp : q = p
    · rw [hqp, Machine.setTask_tasks_self, hsettled, ← hqp] at hq
      exact hq
    · rw [Machine.setTask_tasks_ne _ _ _ _ hqp] at hq
      exact hq

theorem interrupt (m : Machine) (c : ℕ) : KeepsSeats m (m.interrupt c) :=
  ⟨Machine.interrupt_curr, fun _ => interrupt_user,
    fun _ => (Machine.Moves.interrupt m c).settled⟩

theorem enqueue (m : Machine) (q c : ℕ) (b : Bool) : KeepsSeats m (m.enqueue q c b) :=
  ⟨Machine.enqueue_curr, fun _ => enqueue_user, fun _ => (Machine.Moves.enqueue m q c b).settled⟩

theorem wake {w : Wake} (h : m.wake w = some m') : KeepsSeats m m' :=
  ⟨wake_curr h, fun _ hq => wake_user hq h, fun _ => (Machine.Moves.wake h).settled⟩

theorem sendSig (h : m.sendSig p x = some m') : KeepsSeats m m' := by
  have hsig : KeepsSeats m (m.setTask p { m.tasks p with sig := true }) := setTask rfl rfl
  simp only [Machine.sendSig] at h
  split at h
  · split_ifs at h
    exact hsig.trans (wake h)
  · cases h
    exact hsig.trans (interrupt _ _)
  · cases h
    exact hsig

theorem schedTick (h : m.schedTick c x = some m') : KeepsSeats m m' := by
  obtain ⟨n, hfold, rfl⟩ := Option.map_eq_some_iff.mp h
  rw [foldlM_eq_run] at hfold
  refine trans ?_ (interrupt n c)
  refine run_invariant (I := fun n => KeepsSeats m n) (fun u w v hstep hI => ?_) hfold ?_
  · obtain ⟨-, rfl⟩ := migrate_cases hstep
    exact hI.trans (enqueue u w.task w.cpu w.preempt)
  · split_ifs
    · exact ⟨rfl, fun _ h => h, fun _ h => h⟩
    · exact refl m

theorem letOut : KeepsSeats m (m.letOut p) := by
  unfold Machine.letOut
  split
  · exact interrupt m _
  · exact refl m

end KeepsSeats

variable {s t : Session} {o : Op} {x : Choice}

/-- An operation of the controller creates a task or leaves who runs where. -/
theorem execOp_keepsSeats (h : execOp s o x = some t) :
    KeepsSeats s.machine t.machine ∨ t.machine = s.machine.create := by
  cases (execOp_move h).2 with
  | put hput => exact Or.inl (KeepsSeats.setTask rfl rfl)
  | overrun hfull => exact Or.inl (KeepsSeats.refl _)
  | letOut => exact Or.inl KeepsSeats.letOut
  | signal hsig => exact Or.inl (KeepsSeats.sendSig hsig)
  | call htick => exact Or.inl (KeepsSeats.schedTick htick)
  | poll hsettled => exact Or.inl (KeepsSeats.refl _)
  | create hroom => exact Or.inr rfl

theorem boot_fine_sound (k : ℕ) : (Fine.boot k).Sound where
  coherent := bootMachine_coherent k
  taken p h := by cases h
  seated p h := by cases h

theorem fineOp_sound {s t : Fine} (h : fineOp s o x = some t) (hs : s.Sound) : t.Sound := by
  obtain ⟨t, hexec, rfl⟩ := Option.map_eq_some_iff.mp h
  have hcoherent := execOp_coherent hs.coherent hexec
  rcases execOp_keepsSeats hexec with hkeeps | hcreate
  · refine ⟨hcoherent, fun p hp => ?_, fun p hp => ?_⟩
    · obtain ⟨hplace, c, hc⟩ := hs.taken p hp
      exact ⟨hkeeps.user p hplace, c, by rw [hkeeps.curr]; exact hc⟩
    · obtain ⟨c, hc⟩ := hs.seated p (hkeeps.settled p hp)
      exact ⟨c, by rw [hkeeps.curr]; exact hc⟩
  · have hcurr : t.machine.curr = s.session.machine.curr := by
      rw [hcreate]
      rfl
    have hnew (p : ℕ) (hp : p ≠ s.session.machine.ntasks) :
        t.machine.tasks p = s.session.machine.tasks p := by
      rw [hcreate]
      exact Machine.setTask_tasks_ne _ _ _ _ hp
    refine ⟨hcoherent, fun p hp => ?_, fun p hp => ?_⟩
    · obtain ⟨hplace, c, hc⟩ := hs.taken p hp
      have hlt := (hs.coherent.currAt c p hc).2
      refine ⟨?_, c, by rw [hcurr]; exact hc⟩
      rw [hnew p hlt.ne]
      exact hplace
    · have hold : (s.session.machine.tasks p).settled = true := by
        by_cases hpn : p = s.session.machine.ntasks
        · rw [hcreate, hpn] at hp
          change ((s.session.machine.setTask _ parkedTask).tasks _).settled = true at hp
          rw [Machine.setTask_tasks_self] at hp
          cases hp
        · rw [hnew p hpn] at hp
          exact hp
      obtain ⟨c, hc⟩ := hs.seated p hold
      exact ⟨c, by rw [hcurr]; exact hc⟩

theorem fineEnv_cases {s t : Fine} {e : FineAct} (h : fineEnv s (c, e) = some t) :
    (∃ p, e = .check p ∧ s.session.machine.curr c = some p ∧ s.taken p = true ∧
      t = ⟨{ s.session with machine := s.session.machine.checkHalt c p },
        Function.update s.taken p false⟩) ∨
    ∃ a m', e = .act a ∧ (∀ p, a.actor = some p → s.taken p = false) ∧
      cpuStep s.session.machine c a = some m' ∧
      t = s.advance a { s.session with machine := m' } := by
  cases e with
  | check p =>
      simp only [fineEnv] at h
      split_ifs at h with hcheck
      cases h
      simp only [Bool.and_eq_true, beq_iff_eq] at hcheck
      exact Or.inl ⟨p, rfl, hcheck.2.1, hcheck.2.2, rfl⟩
  | act a =>
      simp only [fineEnv] at h
      split_ifs at h with hblocked
      obtain ⟨u, hu, rfl⟩ := Option.map_eq_some_iff.mp h
      obtain ⟨-, m', hstep, rfl⟩ := cpuEnv_step hu
      refine Or.inr ⟨a, m', rfl, fun p hp => ?_, hstep, rfl⟩
      rw [hp, Option.any_some] at hblocked
      exact Bool.eq_false_iff.mpr hblocked

/-- A read that takes nothing is of the current task, in user mode. -/
theorem takesNothing_cases (hnothing : a.takesNothing m = true) (h : cpuStep m c a = some m') :
    ∃ p k, a = .read p k ∧ m.curr c = some p ∧ (m.tasks p).place = .user none := by
  cases a with
  | read p k =>
      have hcurr := cpuStep_read h
      refine ⟨p, k, rfl, hcurr, ?_⟩
      rcases cpuStep_inv h with ⟨q, b, heq, -⟩ | ⟨k', heq, -⟩ | ⟨q, hq, -, hstep⟩
      · cases heq
      · cases heq
      · obtain rfl : p = q := Option.some.inj (hcurr.symm.trans hq)
        cases hplace : (m.tasks p).place with
        | user next =>
            cases next with
            | none => rfl
            | some act => simp [taskStep, hplace] at hstep
        | _ => simp [taskStep, hplace] at hstep
  | _ => cases hnothing

theorem checkHalt_cases (m : Machine) (c p : ℕ) : ∃ settled place,
    (settled = true ∧ place = Place.halt ∨ settled = (m.tasks p).settled ∧ place = .ret none) ∧
      m.checkHalt c p = m.setTask p { m.tasks p with settled := settled, place := place } := by
  unfold Machine.checkHalt
  split
  · exact ⟨_, _, Or.inr ⟨rfl, rfl⟩, rfl⟩
  · exact ⟨_, _, Or.inl ⟨rfl, rfl⟩, rfl⟩

theorem fineEnv_sound {s t : Fine} {e : FineAct} (h : fineEnv s (c, e) = some t) (hs : s.Sound) :
    t.Sound := by
  rcases fineEnv_cases h with ⟨p, -, hcurr, htaken, rfl⟩ | ⟨a, m', -, hactor, hstep, rfl⟩
  · obtain ⟨settled, place, hplace, heq⟩ := checkHalt_cases s.session.machine c p
    have hnot : (s.session.machine.tasks p).settled = false :=
      settled_eq_false hs.coherent (by simp [(hs.taken p htaken).1])
        (by simp [(hs.taken p htaken).1])
    have hsound : Task.Sound { s.session.machine.tasks p with settled := settled, place := place }
        := by
      rcases hplace with ⟨rfl, rfl⟩ | ⟨rfl, rfl⟩
      · exact ⟨fun _ => Or.inl rfl, by simp⟩
      · exact ⟨by simp [hnot], by simp⟩
    refine ⟨?_, fun q hq => ?_, fun q hq => ?_⟩
    · simp only [heq]
      exact hs.coherent.setTask hsound fun d hd => (hs.coherent.currAt d p hd).1
    · have hqp : q ≠ p := by
        rintro rfl
        simp only [Function.update_self, Bool.false_eq_true] at hq
      simp only [Function.update_of_ne hqp] at hq
      simp only [heq, Machine.setTask_tasks_ne _ _ _ _ hqp]
      exact hs.taken q hq
    · simp only [heq] at hq ⊢
      by_cases hqp : q = p
      · exact ⟨c, hqp ▸ hcurr⟩
      · rw [Machine.setTask_tasks_ne _ _ _ _ hqp] at hq
        exact hs.seated q hq
  · unfold Fine.advance
    split_ifs with hnothing
    · obtain ⟨p, k, rfl, hcurr, hplace⟩ := takesNothing_cases hnothing hstep
      refine ⟨hs.coherent, fun q hq => ?_, hs.seated⟩
      simp only [Bool.or_eq_true, Act.reads, beq_iff_eq] at hq
      rcases hq with hq | rfl
      · exact hs.taken q hq
      · exact ⟨hplace, c, hcurr⟩
    · rw [Bool.not_eq_true] at hnothing
      refine ⟨cpuStep_coherent hs.coherent hstep, fun q hq => ?_, fun q hq => ?_⟩
      · obtain ⟨hplace, d, hd⟩ := hs.taken q hq
        have hnotq : a.actor ≠ some q := by
          intro heq
          rw [hactor q heq] at hq
          cases hq
        exact ⟨cpuStep_user hs.coherent hplace hnotq hstep, d,
          cpuStep_curr_user hs.coherent hplace hnotq hstep hd⟩
      · exact cpuStep_seated hs.coherent hnothing hstep hs.seated hq

theorem fineStep_sound {s t : Fine × List Op} {e : FineLabel} (h : fineStep s e = some t)
    (hs : s.1.Sound) : t.1.Sound := by
  rcases interleave_cases h with ⟨o, x, -, -, hop⟩ | ⟨⟨c, e⟩, -, -, henv⟩
  · exact fineOp_sound hop hs
  · exact fineEnv_sound henv hs

/-- Every state a controller's program reaches is sound. -/
theorem fineRun_sound {k : ℕ} {prog : List Op} {l : List FineLabel} {s : Fine × List Op}
    (h : run fineStep (Fine.boot k, prog) l = some s) : s.1.Sound :=
  run_invariant (I := fun s => s.1.Sound) (fun _ _ _ => fineStep_sound) h (boot_fine_sound k)

end KStep
