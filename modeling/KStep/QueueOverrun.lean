import KStep.CliSession

/-!
# When a session overruns a control queue

The queue of a task is a backlog of the actions asked of it against its own reads. A session has
panicked exactly when in some stretch of it a task was asked for more than `KSTEP_CTRL_QUEUE`
actions beyond the reads it made.
-/

namespace KStep

open Runs Cli Backlog

def asked (p : ℕ) (w : List SessionLabel) : ℕ := w.countP (SessionLabel.asks p)

def readBy (p : ℕ) (w : List SessionLabel) : ℕ := w.countP (SessionLabel.reads p)

def history (p : ℕ) (l : List SessionLabel) : List Bool := l.filterMap (SessionLabel.traffic p)

variable {base : CliView} {k p : ℕ} {l w : List SessionLabel} {s : Session × List Op}

theorem asks_reads (p : ℕ) (e : SessionLabel) : e.asks p = false ∨ e.reads p = false := by
  rcases e with text | ⟨o, x⟩ | ⟨c, a⟩
  · exact Or.inl rfl
  · exact Or.inr rfl
  · exact Or.inl rfl

theorem history_counts : arrivals (history p w) = asked p w ∧ departures (history p w) =
    readBy p w := by
  induction w with
  | nil => exact ⟨rfl, rfl⟩
  | cons e w ih =>
      obtain ⟨harrivals, hdepartures⟩ := ih
      simp only [arrivals, departures, history, asked, readBy] at harrivals hdepartures ⊢
      simp only [List.filterMap_cons, SessionLabel.traffic, List.countP_cons]
      cases hasks : e.asks p with
      | false => cases hreads : e.reads p <;> simp [harrivals, hdepartures]
      | true =>
          have hreads := (asks_reads p e).resolve_left (by simp [hasks])
          simp [hreads, harrivals, hdepartures]

theorem history_concat (e : SessionLabel) :
    history p (l ++ [e]) = history p l ++ (e.traffic p).toList := by
  rw [history, List.filterMap_append]
  cases h : e.traffic p <;> simp [history, h]

theorem backlog_traffic_le {n : ℕ} {e : SessionLabel} (hn : n ≤ kstepCtrlQueue)
    (hroom : e.asks p = true → n < kstepCtrlQueue) :
    backlog n (e.traffic p).toList ≤ kstepCtrlQueue := by
  unfold SessionLabel.traffic
  split_ifs with hasks hreads
  · exact hroom hasks
  · exact (Nat.sub_le n 1).trans hn
  · exact hn

theorem sessionSound_boot (k : ℕ) : SessionSound (Session.boot k, []) where
  coherent := bootMachine_coherent k
  puts o ho := by cases ho
  fresh p _ := parkedTask_outstanding

/-- In a session that has not panicked every queue is its backlog, and has never been over full. -/
theorem session_backlog (h : run (sessionStep base) (Session.boot k, []) l = some s)
    (hpanic : s.1.panicked = false) :
    SessionSound s ∧ ∀ p, s.1.machine.outstanding p = backlog 0 (history p l) ∧
      ∀ w, w <+: l → backlog 0 (history p w) ≤ kstepCtrlQueue := by
  induction l using List.reverseRecOn generalizing s with
  | nil =>
      cases h
      refine ⟨sessionSound_boot k, fun p => ⟨parkedTask_outstanding, fun w hw => ?_⟩⟩
      rw [List.prefix_nil.mp hw]
      exact Nat.zero_le _
  | append_singleton l e ih =>
      obtain ⟨u, hrun, hstep⟩ := run_concat h
      obtain ⟨hsound, hbacklog⟩ := ih hrun (sessionStep_cases hstep).1
      obtain ⟨hsound', htraffic⟩ := sessionStep_sound hstep hsound hpanic
      refine ⟨hsound', fun p => ?_⟩
      obtain ⟨heq, hbelow⟩ := hbacklog p
      obtain ⟨hnext, hroom⟩ := htraffic p
      have hlast : s.1.machine.outstanding p = backlog 0 (history p (l ++ [e])) := by
        rw [history_concat, backlog_append, ← heq]
        exact hnext
      refine ⟨hlast, fun w hw => ?_⟩
      rcases List.prefix_concat_iff.mp hw with rfl | hw
      · have hle := hbelow l List.prefix_rfl
        rw [← hlast, hnext]
        rw [← heq] at hle
        exact backlog_traffic_le hle hroom
      · exact hbelow w hw

/-- A session panics with a put that takes the backlog over the queue. -/
theorem session_panic (h : run (sessionStep base) (Session.boot k, []) l = some s)
    (hpanic : s.1.panicked = true) : ∃ p, kstepCtrlQueue < backlog 0 (history p l) := by
  induction l using List.reverseRecOn with
  | nil =>
      cases h
      cases hpanic
  | append_singleton l e _ =>
      obtain ⟨⟨u, prog⟩, hrun, hstep⟩ := run_concat h
      obtain ⟨s, prog'⟩ := s
      obtain ⟨hu, hcase⟩ := sessionStep_cases hstep
      have hbacklog := (session_backlog hrun hu).2
      rcases hcase with ⟨_, _, _, -, -, rfl, -⟩ | ⟨c, rfl, hctl⟩
      · exact absurd (hu.symm.trans hpanic) (by simp)
      · rcases interleave_cases hctl with ⟨o, x, rfl, -, hop⟩ | ⟨a, -, -, henv⟩
        · obtain ⟨p, hputs, hfull⟩ := execOp_panicked hu hop hpanic
          refine ⟨p, ?_⟩
          have htraffic : (SessionLabel.ctl (.op o x)).traffic p = some true := by
            simp [SessionLabel.traffic, SessionLabel.asks, hputs]
          rw [history_concat, backlog_append, ← (hbacklog p).1, htraffic]
          exact Nat.lt_succ_of_le hfull
        · obtain ⟨-, m', -, rfl⟩ := cpuEnv_step henv
          exact absurd (hu.symm.trans hpanic) (by simp)

/-- A session of `create`, `tick` and task verbs, however the tasks are scheduled, has not panicked
if and only if in no stretch of it a task was asked for more than `KSTEP_CTRL_QUEUE` actions beyond
its control reads. -/
theorem no_overrun_iff (base : CliView) (k : ℕ) (l : List SessionLabel) (s : Session × List Op)
    (h : run (sessionStep base) (Session.boot k, []) l = some s) :
    s.1.panicked = false ↔
      ∀ p w, w <:+: l → asked p w ≤ readBy p w + kstepCtrlQueue := by
  have hcounts (p : ℕ) : (∀ w, w <+: l → backlog 0 (history p w) ≤ kstepCtrlQueue) ↔
      ∀ w, w <:+: l → asked p w ≤ readBy p w + kstepCtrlQueue := by
    have hiff := backlog_le_iff (history p l) kstepCtrlQueue
    simp only [history, List.prefix_filterMap_iff, List.infix_filterMap_iff] at hiff
    constructor
    · intro hle w hw
      rw [← (history_counts (p := p)).1, ← (history_counts (p := p)).2]
      refine hiff.mp ?_ _ ⟨w, hw, rfl⟩
      rintro _ ⟨w, hw, rfl⟩
      exact hle w hw
    · intro hle w hw
      refine hiff.mpr ?_ _ ⟨w, hw, rfl⟩
      rintro _ ⟨w, hw, rfl⟩
      have hw' := hle w hw
      rw [← (history_counts (p := p)).1, ← (history_counts (p := p)).2] at hw'
      exact hw'
  constructor
  · intro hpanic p
    exact (hcounts p).mp ((session_backlog h hpanic).2 p).2
  · intro hstretch
    by_contra hpanic
    obtain ⟨p, hp⟩ := session_panic h (by simpa using hpanic)
    exact absurd ((hcounts p).mpr (hstretch p) l List.prefix_rfl) (not_le.mpr hp)

def ctlOp (o : Op) : SessionLabel := .ctl (.op o noChoice)

def cpuAct (a : Act) : SessionLabel := .ctl (.env (1, a))

def createOne : List SessionLabel :=
  [.line "create".toList, ctlOp .create,
    .ctl (.op (.signal 0) ⟨⟨0, 1, false, false⟩, false, []⟩), cpuAct (.schedule (.task 0)),
    cpuAct (.handle 0), cpuAct (.resume 0), cpuAct (.read 0 .idle), ctlOp (.poll 1),
    ctlOp (.poll 1)]

def pauseRunning : List SessionLabel :=
  [.line "pause 1".toList, ctlOp (.put 0 .pause), ctlOp (.letOut 0), cpuAct (.leave 0),
    cpuAct (.resume 0), cpuAct (.read 0 .idle), cpuAct (.resume 0),
    cpuAct (.perform 0 .idle none), ctlOp (.poll 1), ctlOp (.poll 1)]

def pauseAsleep : List SessionLabel :=
  [.line "pause 1".toList, ctlOp (.put 0 .pause), ctlOp (.letOut 0), ctlOp (.poll 1),
    ctlOp (.poll 1)]

/-- Ten lines `pause 1` after a `create`: one is taken, eight wait, the next finds the queue
full. -/
theorem ten_pauses_overrun : ∃ s, run (sessionStep plainView) (Session.boot 1, [])
      (createOne ++ pauseRunning ++ (List.replicate 8 pauseAsleep).flatten ++
        pauseAsleep.take 2) = some s ∧ s.1.panicked = true :=
  ⟨_, rfl, rfl⟩

theorem nine_pauses_fit : ∃ s, run (sessionStep plainView) (Session.boot 1, [])
      (createOne ++ pauseRunning ++ (List.replicate 8 pauseAsleep).flatten) = some s ∧
    ∀ p w, w <:+: createOne ++ pauseRunning ++ (List.replicate 8 pauseAsleep).flatten →
      asked p w ≤ readBy p w + kstepCtrlQueue :=
  ⟨_, rfl, (no_overrun_iff plainView 1 _ _ rfl).mp rfl⟩

end KStep
