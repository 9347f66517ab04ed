import KStep.Backlog
import KStep.Cli
import KStep.ControlQueue

/-!
# Sessions of the cli

A session reads a line when the program of the one before has run, and appends what the command
does, and the settle of `run`, to the controller's program. The lines here are those made of
`create`, `tick` and the verbs that queue an action for a task or wake it.
-/

namespace KStep

open Runs Cli Backlog

/-- What a command has the controller do, on `k` test CPUs and with `ntasks` tasks so far. -/
def commandOps (k ntasks : ℕ) : Command → Option (List Op)
  | .create n _ => some
      ((List.range' ntasks n.toNat).flatMap fun p => .create :: kstepTaskWakeup k p)
  | .tick n => some (List.replicate n.toNat (kstepTick k)).flatten
  | .task (.ctrl a) p => some (kstepTaskCtrl k p a)
  | .task .wake p => some (kstepTaskWakeup k p)
  | _ => none

def Session.view (s : Session) (base : CliView) : CliView :=
  { base with
    ntasks := s.machine.ntasks
    exited := fun p => decide ((s.machine.tasks p).place = .dead)
    testNcpus := s.machine.ncpus }

inductive SessionLabel
  | line (text : List Char)
  | ctl (label : CtlLabel)

/-- `run`: an accepted line when the program before it is done, else a step of the controller or
of a CPU. -/
def sessionStep (base : CliView) :
    Session × List Op → SessionLabel → Option (Session × List Op)
  | (s, []), .line text =>
      if s.panicked then none
      else match runLine (s.view base) text with
        | some (.ok c) => (commandOps s.machine.ncpus s.machine.ntasks c).map fun ops =>
            (s, ops ++ kstepSettle s.machine.ncpus)
        | _ => none
  | _, .line _ => none
  | s, .ctl e => ctlStep s e

def bootMachine (k : ℕ) : Machine where
  ncpus := k
  ntasks := 0
  tasks _ := parkedTask
  curr _ := none
  needResched _ := false
  tokens := 0

def Session.boot (k : ℕ) : Session := ⟨bootMachine k, false⟩

theorem bootMachine_coherent (k : ℕ) : (bootMachine k).Coherent :=
  ⟨fun _ => ⟨by simp [bootMachine, parkedTask], by simp [bootMachine, parkedTask]⟩,
    fun c p hp => by cases hp⟩

def SessionLabel.asks (p : ℕ) : SessionLabel → Bool
  | .ctl (.op o _) => o.puts p
  | _ => false

def SessionLabel.reads (p : ℕ) : SessionLabel → Bool
  | .ctl (.env (_, a)) => a.reads p
  | _ => false

def SessionLabel.traffic (p : ℕ) (e : SessionLabel) : Option Bool :=
  if e.asks p then some true else if e.reads p then some false else none

variable {base : CliView} {s s' : Session} {prog prog' : List Op} {e : SessionLabel}

theorem sessionStep_cases (h : sessionStep base (s, prog) e = some (s', prog')) :
    s.panicked = false ∧
      ((∃ text c ops, e = .line text ∧ prog = [] ∧ s' = s ∧
          execute (s.view base) (CString.strim text) = .ok c ∧
          commandOps s.machine.ncpus s.machine.ntasks c = some ops ∧
          prog' = ops ++ kstepSettle s.machine.ncpus) ∨
        ∃ l, e = .ctl l ∧ ctlStep (s, prog) l = some (s', prog')) := by
  rcases e with text | l
  · rcases prog with _ | ⟨o, prog⟩
    · simp only [sessionStep] at h
      split_ifs at h with hpanic
      refine ⟨by simpa using hpanic, Or.inl ?_⟩
      split at h
      · rename_i c hline
        obtain ⟨ops, hops, heq⟩ := Option.map_eq_some_iff.mp h
        cases heq
        exact ⟨text, c, ops, rfl, rfl, rfl, runLine_eq_execute hline, hops, rfl⟩
      · cases h
    · cases h
  · have hstep : ctlStep (s, prog) l = some (s', prog') := by
      rcases prog with _ | ⟨o, prog⟩ <;> exact h
    refine ⟨?_, Or.inr ⟨l, rfl, hstep⟩⟩
    by_contra hpanic
    rw [Bool.not_eq_false] at hpanic
    rcases interleave_cases hstep with ⟨o, x, -, -, hop⟩ | ⟨a, -, -, henv⟩
    · simp [execOp, hpanic] at hop
    · simp [cpuEnv, hpanic] at henv

/-- What a session keeps: the program asks only tasks that exist, and no action waits in the
record of one that does not. -/
structure SessionSound (s : Session × List Op) : Prop where
  coherent : s.1.machine.Coherent
  puts : ∀ o ∈ s.2, ∀ p, o.puts p = true → p < s.1.machine.ntasks
  fresh : ∀ p, s.1.machine.ntasks ≤ p → s.1.machine.outstanding p = 0

theorem kstepSettle_puts {k : ℕ} {o : Op} (ho : o ∈ kstepSettle k) (p : ℕ) :
    o.puts p = false := by
  obtain ⟨c, -, rfl⟩ := List.mem_map.mp ho
  rfl

/-- A command queues an action only for a task that exists. -/
theorem commandOps_puts {v : CliView} {line : List Char} {c : Command} {k : ℕ} {ops : List Op}
    (hline : execute v line = .ok c) (hops : commandOps k v.ntasks c = some ops) {o : Op}
    (ho : o ∈ ops) {p : ℕ} (hp : o.puts p = true) : p < v.ntasks := by
  have hsettle {o : Op} (ho : o ∈ kstepSettle k) (hp : o.puts p = true) : p < v.ntasks :=
    absurd ((kstepSettle_puts ho p).symm.trans hp) (by simp)
  unfold commandOps at hops
  split at hops
  · cases hops
    obtain ⟨q, -, ho⟩ := List.mem_flatMap.mp ho
    simp only [kstepTaskWakeup, List.mem_cons] at ho
    rcases ho with rfl | rfl | ho
    · cases hp
    · cases hp
    · exact hsettle ho hp
  · cases hops
    obtain ⟨ops, hops, ho⟩ := List.mem_flatten.mp ho
    rw [(List.mem_replicate.mp hops).2] at ho
    simp only [kstepTick, List.mem_append] at ho
    rcases ho with (ho | ho) | ho
    · exact hsettle ho hp
    · obtain ⟨c, -, rfl⟩ := List.mem_map.mp ho
      cases hp
    · exact hsettle ho hp
  · cases hops
    rcases execute_cases hline with ⟨_, _, _, _, _, hverb⟩ | ⟨_, _, _, q, _, hc, hq⟩ | hc
    · cases hverb
    · cases hc
      simp only [kstepTaskCtrl, List.mem_cons] at ho
      rcases ho with rfl | rfl | ho
      · rw [Op.puts, beq_iff_eq] at hp
        exact hp ▸ (parseTask_lt hq).1
      · cases hp
      · exact hsettle ho hp
    · cases hc
  · cases hops
    simp only [kstepTaskWakeup, List.mem_cons] at ho
    rcases ho with rfl | ho
    · cases hp
    · exact hsettle ho hp
  · cases hops

/-- A step that does not panic keeps the session sound and moves each queue by its traffic. -/
theorem sessionStep_sound (h : sessionStep base (s, prog) e = some (s', prog'))
    (hs : SessionSound (s, prog)) (hpanic : s'.panicked = false) :
    SessionSound (s', prog') ∧ ∀ p, s'.machine.outstanding p =
        backlog (s.machine.outstanding p) (e.traffic p).toList ∧
      (e.asks p = true → s.machine.outstanding p < kstepCtrlQueue) := by
  obtain ⟨-, hcase⟩ := sessionStep_cases h
  rcases hcase with ⟨text, c, ops, rfl, rfl, rfl, hline, hops, rfl⟩ | ⟨l, rfl, hctl⟩
  · refine ⟨⟨hs.coherent, fun o ho p hp => ?_, hs.fresh⟩, fun p => ⟨rfl, fun hp => ?_⟩⟩
    · rcases List.mem_append.mp ho with ho | ho
      · exact commandOps_puts hline hops ho hp
      · exact absurd ((kstepSettle_puts ho p).symm.trans hp) (by simp)
    · cases hp
  · have hcoherent := ctlStep_coherent hctl hs.coherent
    rcases interleave_cases hctl with ⟨o, x, rfl, rfl, hop⟩ | ⟨⟨c, a⟩, rfl, rfl, henv⟩
    · have hout := execOp_outstanding hop hpanic (hs.fresh _ le_rfl)
      refine ⟨⟨hcoherent, fun o' ho p hp => ?_, fun p hp => ?_⟩, fun p => ⟨?_, (hout p).2.2⟩⟩
      · exact (hs.puts o' (List.mem_cons_of_mem _ ho) p hp).trans_le (hout p).1
      · have hle := (hout p).1.trans hp
        rw [(hout p).2.1, hs.fresh p hle, if_neg]
        exact fun hputs => absurd (hs.puts o List.mem_cons_self p hputs) (not_lt.mpr hle)
      · rw [(hout p).2.1]
        cases hputs : o.puts p <;>
          simp [SessionLabel.traffic, SessionLabel.asks, SessionLabel.reads, hputs, backlog]
    · obtain ⟨-, m', hstep, rfl⟩ := cpuEnv_step henv
      have hout := cpuStep_outstanding hs.coherent hstep
      refine ⟨⟨hcoherent, fun o ho p hp => ?_, fun p hp => ?_⟩, fun p => ⟨?_, fun hp => ?_⟩⟩
      · exact (hs.puts o ho p hp).trans_eq (hout p).1.symm
      · have hzero := hs.fresh p ((hout p).1 ▸ hp)
        have hp' := (hout p).2
        rw [hzero, Nat.zero_sub, ite_self] at hp'
        exact hp'
      · rw [(hout p).2]
        cases hreads : a.reads p <;>
          simp [SessionLabel.traffic, SessionLabel.asks, SessionLabel.reads, hreads, backlog]
      · cases hp

end KStep
