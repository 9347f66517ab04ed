import KStep.SettleBarrier
import KStep.SettledSound

/-!
# The flag of a task let out of its halt

An interrupt ends a halt and leaves the flag up, for the task to clear. Until it has, the CPU passes
for settled with steps of its own left; at every other moment a settled CPU has none. A controller
that goes on in between may put its next action after the task has looked into its queue and before
it halts. Nothing lets the task out for that action, so the next poll waits for it in vain.
-/

namespace KStep

open RingQueue Runs

/-- A flag is up only in the halt, and a CPU that looks settled has nothing left to do. -/
structure Fine.FlagsTrue (s : Fine) : Prop where
  halt : ∀ p, (s.session.machine.tasks p).settled = true →
    ∃ c, s.session.machine.curr c = some p ∧ (s.session.machine.tasks p).place = .halt
  done : ∀ c, kstepCpuSettled s.session.machine c = true →
    s.session.machine.NothingToDo c ∧ ∀ e, fineEnv s (c, e) = none

/-- No task has been let out of its halt with its flag not yet cleared. -/
def Fine.NoneLeaving (s : Fine) : Prop := ∀ p, (s.session.machine.tasks p).place ≠ .leaving

/-- The flag is up in the halt, and stays up when the halt ends. -/
def Task.Flagged (t : Task) : Prop := t.place = .halt ∨ t.place = .leaving → t.settled = true

variable {m m' : Machine} {c p q : ℕ} {s t u : Fine} {a : Ctrl} {x : Choice}

theorem Task.flagged_of_place {t : Task} (hhalt : t.place ≠ .halt) (hleaving : t.place ≠ .leaving) :
    t.Flagged := fun h => absurd (h.resolve_left hhalt) hleaving

theorem Move.flagged {t t' : Task} (h : Move t t') (ht : t.Flagged) : t'.Flagged := by
  cases h with
  | relocate loc => exact ht
  | interrupt hhalt => exact fun _ => ht (Or.inl hhalt)
  | rouse hplace hnew =>
      rcases hnew with rfl | rfl <;> exact Task.flagged_of_place nofun nofun
  | leave hplace => exact Task.flagged_of_place nofun nofun
  | handle hplace => exact ht
  | resume hplace => exact Task.flagged_of_place nofun nofun
  | trap hplace => exact Task.flagged_of_place nofun nofun
  | take hplace htake => exact Task.flagged_of_place nofun nofun
  | park hplace htake hnew =>
      rcases hnew with rfl | rfl <;> exact Task.flagged_of_place nofun nofun
  | @perform a place hplace hnew =>
      have houtcomes : Place.halt ∉ a.outcomes ∧ Place.leaving ∉ a.outcomes := by
        cases a <;> decide
      refine Task.flagged_of_place ?_ ?_
      · rintro (rfl : place = .halt)
        exact houtcomes.1 hnew
      · rintro (rfl : place = .leaving)
        exact houtcomes.2 hnew
  | look hplace hnew =>
      rcases hnew with rfl | rfl <;> exact Task.flagged_of_place nofun nofun

theorem Machine.Moves.flagged (h : m.Moves m') (hm : (m.tasks q).Flagged) :
    (m'.tasks q).Flagged := by
  have hall : ∀ {t t' : Task}, Relation.ReflTransGen Move t t' → t.Flagged → t'.Flagged := by
    intro t t' hmoves ht
    induction hmoves with
    | refl => exact ht
    | tail _ hmove ih => exact hmove.flagged ih
  exact hall (h q) hm

theorem setTask_flagged {t : Task} (ht : t.Flagged) (hm : (m.tasks q).Flagged) :
    ((m.setTask p t).tasks q).Flagged := by
  by_cases hqp : q = p
  · rw [hqp, Machine.setTask_tasks_self]
    exact ht
  · rw [Machine.setTask_tasks_ne _ _ _ _ hqp]
    exact hm

theorem execOp_flagged {s t : Session} {o : Op} (h : execOp s o x = some t)
    (hs : ∀ q, (s.machine.tasks q).Flagged) (q : ℕ) : (t.machine.tasks q).Flagged := by
  cases (execOp_move h).2 with
  | @put p a ring hput =>
      have hring : Task.Flagged { s.machine.tasks p with ring := ring } := hs p
      exact setTask_flagged hring (hs q)
  | overrun hfull => exact hs q
  | letOut => exact letOut_moves.flagged (hs q)
  | @signal p m' hsig =>
      have hraised : Task.Flagged { s.machine.tasks p with sig := true } := hs p
      exact (sendSig_moves hsig).flagged (setTask_flagged hraised (hs q))
  | call htick => exact (schedTick_moves htick).flagged (hs q)
  | poll hsettled => exact hs q
  | create hroom => exact setTask_flagged (Task.flagged_of_place nofun nofun) (hs q)

theorem fineEnv_flagged {e : FineAct} (h : fineEnv s (c, e) = some t)
    (hs : ∀ q, (s.session.machine.tasks q).Flagged) (q : ℕ) :
    (t.session.machine.tasks q).Flagged := by
  rcases fineEnv_cases h with ⟨p, -, -, -, rfl⟩ | ⟨a, m', -, -, hstep, rfl⟩
  · obtain ⟨settled, place, hplace, heq⟩ := checkHalt_cases s.session.machine c p
    simp only [heq]
    refine setTask_flagged ?_ (hs q)
    rcases hplace with ⟨rfl, rfl⟩ | ⟨-, rfl⟩
    · exact fun _ => rfl
    · exact Task.flagged_of_place nofun nofun
  · unfold Fine.advance
    split_ifs with hnothing
    · exact hs q
    · exact (cpuStep_moves (Bool.eq_false_iff.mpr hnothing) hstep).flagged (hs q)

theorem fineStep_flagged {s t : Fine × List Op} {e : FineLabel} (h : fineStep s e = some t)
    (hs : ∀ q, (s.1.session.machine.tasks q).Flagged) :
    ∀ q, (t.1.session.machine.tasks q).Flagged := by
  rcases interleave_cases h with ⟨o, x, -, -, hop⟩ | ⟨⟨c, e⟩, -, -, henv⟩
  · obtain ⟨u, hexec, hu⟩ := Option.map_eq_some_iff.mp hop
    rw [← hu]
    exact execOp_flagged hexec hs
  · exact fineEnv_flagged henv hs

/-- In every state a controller's program reaches, the flags say what they should exactly when no
task stands between the end of its halt and the store that clears its flag. -/
theorem settled_sound_iff (k : ℕ) (prog : List Op) (l : List FineLabel) (s : Fine × List Op)
    (h : run fineStep (Fine.boot k, prog) l = some s) : s.1.FlagsTrue ↔ s.1.NoneLeaving := by
  obtain ⟨hhalt, hdone⟩ := settled_sound k prog l s h
  constructor
  · intro htrue p hleaving
    have hflagged := run_invariant
      (I := fun s : Fine × List Op => ∀ q, (s.1.session.machine.tasks q).Flagged)
      (fun _ _ _ => fineStep_flagged) h (fun _ => Task.flagged_of_place nofun nofun) p
    obtain ⟨-, -, hplace⟩ := htrue.halt p (hflagged (Or.inr hleaving))
    cases hleaving.symm.trans hplace
  · intro hnone
    refine ⟨fun p hp => ?_, fun c hc => ⟨(hdone c hc).1, fun e => ?_⟩⟩
    · obtain ⟨c, hcurr, hplace⟩ := hhalt p hp
      exact ⟨c, hcurr, hplace.resolve_right (hnone p)⟩
    · by_contra hstep
      obtain ⟨t, ht⟩ := Option.ne_none_iff_exists'.mp hstep
      have hone : run fineEnv s.1 ([e].map fun e => (c, e)) = some t := by
        simp only [List.map_cons, List.map_nil, run, ht]
      rcases (hdone c hc).2 [e] t hone with hnil | ⟨p, -, -, hleaving, -⟩
      · cases hnil
      · exact hnone p hleaving

/-- One CPU and one task: created, woken into its first halt, and a tick asked for. -/
def oneTick : List Op := .create :: kstepTaskWakeup 1 0 ++ kstepTick 1

/-- The tick's call has ended the halt, and the task has not yet cleared its flag. -/
def tickEndsHalt : List FineLabel :=
  [.op .create noChoice, .op (.signal 0) ⟨⟨0, 1, false, false⟩, false, []⟩,
    .env (1, .act (.schedule (.task 0))), .env (1, .act (.handle 0)), .env (1, .act (.resume 0)),
    .env (1, .act (.read 0 .idle)), .env (1, .check 0), .op (.poll 1) noChoice,
    .op (.poll 1) noChoice, .op (.call 1) noChoice]

/-- The CPU looks settled, yet its task is out of the halt and clears its flag next. -/
theorem settled_with_step_left : ¬ ∀ (k : ℕ) (prog : List Op) (l : List FineLabel)
    (s : Fine × List Op), run fineStep (Fine.boot k, prog) l = some s → s.1.FlagsTrue := by
  intro hholds
  have hnone := ((hholds 1 oneTick tickEndsHalt _ rfl).done 1 (by decide)).2 (.act (.leave 0))
  cases hnone

def backToHalt : List FineLabel :=
  [.env (1, .act (.leave 0)), .env (1, .act (.resume 0)), .env (1, .act (.read 0 .idle)),
    .env (1, .check 0)]

theorem settled_sound_iff_back_to_halt :
    ∃ s, run fineStep (Fine.boot 1, oneTick) (tickEndsHalt ++ backToHalt) = some s ∧
      kstepCpuSettled s.1.session.machine 1 = true ∧ s.1.FlagsTrue := by
  refine ⟨_, rfl, by decide, (settled_sound_iff 1 oneTick (tickEndsHalt ++ backToHalt) _ rfl).mpr ?_⟩
  intro p hleaving
  rcases p with _ | p
  · cases hleaving
  · cases hleaving

theorem setTask_loc {t : Task} (hloc : t.loc = (m.tasks p).loc) :
    ((m.setTask p t).tasks q).loc = (m.tasks q).loc := by
  by_cases hqp : q = p
  · rw [hqp, Machine.setTask_tasks_self, hloc]
  · rw [Machine.setTask_tasks_ne _ _ _ _ hqp]

/-- An action lies in the queue of the task halting on a CPU that nothing is on its way to. -/
structure Fine.Stranded (s : Fine) (c p : ℕ) (a : Ctrl) : Prop where
  curr : s.session.machine.curr c = some p
  halt : (s.session.machine.tasks p).place = .halt
  taken : s.taken p = false
  queued : a ∈ (s.session.machine.tasks p).ring.contents kstepCtrlQueue
  waking : ∀ q, (s.session.machine.tasks q).loc ≠ .waking c

/-- An action put after the task has taken nothing is followed by no call: the flag is down. -/
theorem letOut_in_window (hs : s.Sound) (htaken : s.taken p = true) :
    s.session.machine.letOut p = s.session.machine := by
  have hplace := (hs.taken p htaken).1
  have hdown : (s.session.machine.tasks p).settled = false :=
    settled_eq_false hs.coherent (by simp [hplace]) (by simp [hplace])
  simp only [Machine.letOut, hdown]

/-- The controller asks for an action after the task has looked into its queue and before it halts:
the task is not called, and halts with the action in its queue. -/
theorem put_in_window {y : Choice} {v : Fine} (hs : s.Sound) (htaken : s.taken p = true)
    (hquiet : (s.session.machine.needResched c || (s.session.machine.tasks p).sig) = false)
    (hwaking : ∀ q, (s.session.machine.tasks q).loc ≠ .waking c)
    (hput : fineOp s (.put p a) x = some t) (hout : fineOp t (.letOut p) y = some u)
    (hhalt : fineEnv u (c, .check p) = some v) : v.Stranded c p a := by
  have ht := fineOp_sound hput hs
  obtain ⟨s₁, hexec, rfl⟩ := Option.map_eq_some_iff.mp hput
  obtain ⟨s₂, hexec', rfl⟩ := Option.map_eq_some_iff.mp hout
  obtain ⟨hroom, hmove⟩ := execOp_move hexec'
  cases (execOp_move hexec).2 with
  | overrun hfull => cases hroom
  | @put p a ring hring =>
      have hcontents := Buffer.contents_put (by decide) (by decide) hring
      have hsame := letOut_in_window ht htaken
      cases hmove with
      | letOut =>
          rcases fineEnv_cases hhalt with ⟨q, heq, hcurr, -, rfl⟩ | ⟨b, m', heq, -⟩
          · cases heq
            simp only [hsame] at hcurr ⊢
            generalize hm : s.session.machine.setTask p
              { s.session.machine.tasks p with ring := ring } = m at hcurr
            have htask : m.tasks p = { s.session.machine.tasks p with ring := ring } := by
              rw [← hm, Machine.setTask_tasks_self]
            have hstill : ¬ (m.needResched c || (m.tasks p).sig) = true := by
              rw [htask, ← hm, Bool.not_eq_true]
              exact hquiet
            have hchecked : m.checkHalt c p =
                m.setTask p { m.tasks p with settled := true, place := .halt } := by
              rw [Machine.checkHalt, if_neg hstill]
            refine ⟨?_, ?_, Function.update_self _ _ _, ?_, fun q hq => ?_⟩
            · rw [hchecked]
              exact hcurr
            · rw [hchecked, Machine.setTask_tasks_self]
            · rw [hchecked, Machine.setTask_tasks_self, htask, hcontents]
              exact List.mem_append_right _ List.mem_cons_self
            · rw [hchecked, setTask_loc, ← hm, setTask_loc] at hq
              · exact hwaking q hq
              · rfl
              · rfl
          · cases heq

/-- The tick's last poll passes for the stale flag, and a pause comes between the task's look into
its queue and its halt. -/
def latePause : List FineLabel :=
  [.op (.poll 1) noChoice, .env (1, .act (.leave 0)), .env (1, .act (.resume 0)),
    .env (1, .act (.read 0 .idle)), .op (.put 0 .pause) noChoice, .op (.letOut 0) noChoice,
    .env (1, .check 0)]

theorem pause_stranded :
    ∃ s, run fineStep (Fine.boot 1, oneTick ++ kstepTaskCtrl 1 0 .pause) (tickEndsHalt ++ latePause) =
      some (s, [.poll 1]) ∧ s.Stranded 1 0 .pause := by
  refine ⟨_, rfl, rfl, rfl, rfl, by decide, fun p hwaking => ?_⟩
  rcases p with _ | p
  · cases hwaking
  · cases hwaking

/-- No step wakes a task onto CPU `c`. -/
def NotOnto (c : ℕ) (_ : Fine) (e : ℕ × FineAct) : Prop :=
  ∀ b w, e.2 = .act b → b.wake = some w → w.cpu ≠ c

theorem Fine.Stranded.step {e : ℕ × FineAct} (hnot : NotOnto c s e) (hs : s.Sound)
    (h : s.Stranded c p a) (hstep : fineEnv s e = some t) : t.Stranded c p a := by
  obtain ⟨d, e⟩ := e
  have hspared {m' : Machine} {taken : ℕ → Bool} (hsp : Spares c s.session.machine m')
      (htaken : taken p = false) :
      Fine.Stranded ⟨{ s.session with machine := m' }, taken⟩ c p a := by
    refine ⟨hsp.curr.trans h.curr, ?_, htaken, ?_, fun q hq => h.waking q (hsp.waking q hq)⟩
    · rw [hsp.task p h.curr]
      exact h.halt
    · rw [hsp.task p h.curr]
      exact h.queued
  rcases fineEnv_cases hstep with ⟨q, -, hcurr, htaken, rfl⟩ | ⟨b, m', rfl, hactor, hact, rfl⟩
  · have hqp : q ≠ p := by
      rintro rfl
      cases htaken.symm.trans h.taken
    have hcq : s.session.machine.curr c ≠ some q := fun hq =>
      hqp (Option.some.inj (hq.symm.trans h.curr))
    obtain ⟨settled, place, -, heq⟩ := checkHalt_cases s.session.machine d q
    rw [heq]
    refine hspared (Spares.setTask hcq id fun _ => id) ?_
    rw [Function.update_of_ne hqp.symm]
    exact h.taken
  · by_cases hdc : d = c
    · subst hdc
      rcases cpuStep_inv hact with ⟨q, b, -, -, hwaking, -⟩ | ⟨k, -, hnone, -⟩ |
        ⟨q, hq, -, htask⟩
      · exact absurd hwaking (h.waking q)
      · cases hnone.symm.trans h.curr
      · obtain rfl : q = p := Option.some.inj (hq.symm.trans h.curr)
        simp [taskStep, h.halt] at htask
    · have hsp := cpuStep_spares hs.coherent hact hdc fun w hw hcpu =>
        absurd hcpu (hnot b w rfl hw)
      unfold Fine.advance
      split_ifs with hnothing
      · obtain ⟨q, k, rfl, hcurr, -⟩ := takesNothing_cases hnothing hact
        have hqp : q ≠ p := by
          rintro rfl
          exact hdc (hs.coherent.curr_inj hcurr h.curr)
        refine ⟨h.curr, h.halt, ?_, h.queued, h.waking⟩
        simp [h.taken, Act.reads, hqp]
      · exact hspared hsp h.taken

/-- The controller's next poll of the CPU waits for an interrupt that nobody sends: whatever the
other CPUs do, short of waking a task onto this one, the action stays where it is. -/
theorem Fine.Stranded.run {l : List (ℕ × FineAct)} (hs : s.Sound) (h : s.Stranded c p a)
    (hl : Always fineEnv (NotOnto c) s l) (hrun : run fineEnv s l = some t) :
    t.Stranded c p a ∧ fineOp t (.poll c) x = none := by
  obtain ⟨-, ht⟩ := run_invariant_of_always (I := fun s => s.Sound ∧ s.Stranded c p a)
    (fun s e t hnot hstep hI => ⟨fineEnv_sound hstep hI.1, hI.2.step hnot hI.1 hstep⟩) hrun hl
    ⟨hs, h⟩
  refine ⟨ht, ?_⟩
  have hbusy : kstepCpuSettled t.session.machine c = false := by
    by_contra hset
    have htask := (kstepCpuSettled_iff.mp (Bool.not_eq_false _ ▸ hset)).2.2.2 p ht.curr
    simp only [kstepTaskSettled, Bool.and_eq_true, decide_eq_true_eq] at htask
    have hempty := Buffer.take_eq_none_iff.mp
      (show (t.session.machine.tasks p).ring.take kstepCtrlQueue = none from if_pos htask.1.2)
    have hmem := ht.queued
    rw [hempty] at hmem
    cases hmem
  simp [fineOp, execOp, hbusy]

end KStep
