import KStep.ClaimBuffer
import Mathlib.Data.List.Count

/-!
# The rule over sync wakeups

The rule samples a wakeup where it is placed, on the waker's CPU, and judges it when the step has
settled, on the controller. The samples wait in a buffer of sixteen slots that the test CPUs fill in
parallel, each with a reference to its task. Every sample is judged once, at the next settle and in
the order of the samples, as long as the settles find no CPU amid a sample.
-/

namespace KStep.SyncWakeup

open ClaimBuffer Runs

def kstepWakeups : ℕ := 16

/-- What the rule takes from the kernel it is built for: the flag of a sync wakeup, and whether
dequeues are delayed (6.14 and later). -/
structure Kernel where
  wfSync : UInt32
  delayedDequeue : Bool

/-- What `on_select` reads of a wakeup of `p` and of the runqueue of the CPU it runs on. -/
structure Wakeup (τ : Type*) where
  p : τ
  wakeFlags : UInt32
  thisCpu : ℕ
  cpusPtr : ℕ → Bool
  jiffies : UInt64
  nrRunning : UInt32
  hNrQueued : UInt32
  hNrRunnable : UInt32

structure Pending (τ : Type*) where
  p : τ
  wakerCpu : ℕ
  deriving DecidableEq

variable {τ : Type*}

def Wakeup.delayed (k : Kernel) (w : Wakeup τ) : UInt32 :=
  if k.delayedDequeue then w.hNrQueued - w.hNrRunnable else 0

def Wakeup.owed (k : Kernel) (w : Wakeup τ) : Bool :=
  w.jiffies ≠ 0 && w.wakeFlags &&& k.wfSync ≠ 0 && w.thisCpu ≠ 0 && w.cpusPtr w.thisCpu &&
    w.nrRunning - w.delayed k = 1

def Wakeup.sample (w : Wakeup τ) : Pending τ := ⟨w.p, w.thisCpu⟩

/-- The buffer, the references the rule holds, where the tasks are, and the warnings: a sample with
the CPU its task landed on. -/
structure State (τ : Type*) where
  pending : ClaimBuffer.State ℕ (Pending τ) kstepWakeups
  usage : τ → ℕ
  taskCpu : τ → ℕ
  warns : List (Pending τ × ℕ)

/-- `on_select` up to the claim of its slot, the store into the slot, the exchange of `on_settle`, one
turn of its loop, and the kernel that puts a task on a CPU. -/
inductive Label (τ : Type*)
  | select (w : Wakeup τ)
  | store (cpu : ℕ)
  | settle
  | judge
  | place (p : τ) (cpu : ℕ)

def State.start (taskCpu : τ → ℕ) : State τ := ⟨.start, fun _ => 0, taskCpu, []⟩

variable [DecidableEq τ]

/-- `on_select`: the reference is taken with the slot, before the entry is stored. -/
def State.select (k : Kernel) (s : State τ) (w : Wakeup τ) : Option (State τ) :=
  if w.owed k then
    (ClaimBuffer.step s.pending (.claim w.thisCpu w.sample)).map fun pending =>
      { s with
        pending := pending
        usage := if s.pending.next < kstepWakeups
          then Function.update s.usage w.p (s.usage w.p + 1) else s.usage }
  else some s

def State.judge (s : State τ) (e : Pending τ) : State τ :=
  { s with
    usage := Function.update s.usage e.p (s.usage e.p - 1)
    warns := if s.taskCpu e.p = e.wakerCpu then s.warns else s.warns ++ [(e, s.taskCpu e.p)] }

def step (k : Kernel) (s : State τ) : Label τ → Option (State τ)
  | .select w => s.select k w
  | .store cpu =>
      (ClaimBuffer.step s.pending (.store cpu)).map fun pending => { s with pending := pending }
  | .settle =>
      (ClaimBuffer.step s.pending .exchange).map fun pending => { s with pending := pending }
  | .judge => match s.pending.taken with
    | none => none
    | some e => (ClaimBuffer.step s.pending .take).map fun pending =>
        { s.judge e with pending := pending }
  | .place p cpu => some { s with taskCpu := Function.update s.taskCpu p cpu }

/-- The rule as it is meant: the wakeups owed since the last settle, those the settle has before it,
and the judged ones with the CPUs they landed on. -/
structure Rule (τ : Type*) where
  pending : List (Pending τ)
  judging : List (Pending τ)
  judged : List (Pending τ × ℕ)
  taskCpu : τ → ℕ

def Rule.start (taskCpu : τ → ℕ) : Rule τ := ⟨[], [], [], taskCpu⟩

def Rule.step (k : Kernel) (r : Rule τ) : Label τ → Option (Rule τ)
  | .select w => some (if w.owed k then { r with pending := r.pending ++ [w.sample] } else r)
  | .store _ => some r
  | .settle => match r.judging with
    | [] => some { r with pending := [], judging := r.pending.take kstepWakeups }
    | _ :: _ => none
  | .judge => match r.judging with
    | [] => none
    | e :: rest => some { r with judging := rest, judged := r.judged ++ [(e, r.taskCpu e.p)] }
  | .place p cpu => some { r with taskCpu := Function.update r.taskCpu p cpu }

/-- A settle finds no CPU between its claim and its store, and no CPU samples beside its loop. -/
def Settled (k : Kernel) (s : State τ) : Label τ → Prop
  | .select w => w.owed k = true → ClaimBuffer.Undisturbed s.pending (.claim w.thisCpu w.sample)
  | .settle => ClaimBuffer.Undisturbed s.pending .exchange
  | _ => True

structure Means (s : State τ) (r : Rule τ) : Prop where
  holds : Holds s.pending ⟨r.pending, r.judging⟩
  usage : ∀ p, s.usage p = ((r.pending.take kstepWakeups ++ r.judging).map Pending.p).count p
  taskCpu : s.taskCpu = r.taskCpu
  warns : s.warns = r.judged.filter fun v => decide (v.2 ≠ v.1.wakerCpu)

variable {k : Kernel} {s t : State τ} {r : Rule τ} {w : Wakeup τ} {l : List (Label τ)}

theorem means_start (taskCpu : τ → ℕ) : Means (State.start taskCpu) (Rule.start taskCpu) :=
  ⟨holds_start, fun _ => rfl, rfl, rfl⟩

theorem count_update (f : τ → ℕ) (l : List τ) (h : ∀ p, f p = l.count p) (q : τ) :
    ∀ p, Function.update f q (f q + 1) p = (l ++ [q]).count p := by
  intro p
  rw [List.count_append, List.count_singleton]
  by_cases hp : p = q
  · subst hp
    rw [Function.update_self, h p, if_pos (beq_self_eq_true p)]
  · rw [Function.update_of_ne hp, h p, if_neg (by rw [beq_iff_eq]; exact Ne.symm hp), Nat.add_zero]

/-- A sample takes a reference when it gets a slot. -/
theorem means_select (h : Means s r) (hP : Settled k s (.select w))
    (hstep : step k s (.select w) = some t) :
    Means t (if w.owed k then { r with pending := r.pending ++ [w.sample] } else r) := by
  by_cases howed : w.owed k = true
  · simp only [step, State.select, if_pos howed] at hstep
    obtain ⟨pending, hpending, rfl⟩ := Option.map_eq_some_iff.mp hstep
    have hidle : r.judging = [] := h.holds.idle (hP howed).1
    have hnext : s.pending.next = (r.pending.length : ℤ) := h.holds.next
    have husage := h.usage
    rw [hidle, List.append_nil] at husage
    rw [if_pos howed]
    refine ⟨holds_claim h.holds (hP howed) hpending, ?_, h.taskCpu, h.warns⟩
    simp only [hidle, List.append_nil, hnext]
    by_cases hroom : r.pending.length < kstepWakeups
    · rw [if_pos (by exact_mod_cast hroom), List.take_of_length_le (by
        rw [List.length_append, List.length_singleton]; exact hroom), List.map_append]
      rw [List.take_of_length_le hroom.le] at husage
      exact count_update s.usage _ husage w.p
    · rw [if_neg (by exact_mod_cast hroom), List.take_append_of_le_length (Nat.not_lt.mp hroom)]
      exact husage
  · simp only [step, State.select, if_neg howed] at hstep
    cases hstep
    rw [if_neg howed]
    exact h

theorem means_settle (h : Means s r) (hP : Settled k s .settle)
    (hstep : step k s .settle = some t) :
    r.judging = [] ∧ Means t { r with pending := [], judging := r.pending.take kstepWakeups } := by
  obtain ⟨pending, hpending, rfl⟩ := Option.map_eq_some_iff.mp hstep
  obtain ⟨hnil, hholds⟩ := holds_exchange h.holds hP hpending
  change r.judging = [] at hnil
  refine ⟨hnil, hholds, fun p => ?_, h.taskCpu, h.warns⟩
  have husage := h.usage p
  rw [hnil, List.append_nil] at husage
  exact husage

/-- A verdict gives back the reference of its sample. -/
theorem means_judge (h : Means s r) (hstep : step k s .judge = some t) :
    ∃ e rest, r.judging = e :: rest ∧
      Means t { r with judging := rest, judged := r.judged ++ [(e, r.taskCpu e.p)] } := by
  simp only [step] at hstep
  split at hstep
  · cases hstep
  rename_i e htaken
  obtain ⟨pending, hpending, rfl⟩ := Option.map_eq_some_iff.mp hstep
  obtain ⟨e', rest, hjudging, htaken', hholds⟩ := holds_take h.holds hpending
  rw [htaken] at htaken'
  cases htaken'
  change r.judging = e :: rest at hjudging
  refine ⟨e, rest, hjudging, hholds, fun p => ?_, h.taskCpu, ?_⟩
  · have husage := h.usage
    rw [hjudging] at husage
    simp only [List.map_append, List.map_cons, List.count_append, List.count_cons] at husage ⊢
    change Function.update s.usage e.p (s.usage e.p - 1) p = _
    by_cases hp : p = e.p
    · subst hp
      rw [Function.update_self, husage, if_pos (beq_self_eq_true e.p)]
      omega
    · rw [Function.update_of_ne hp, husage, if_neg (by rw [beq_iff_eq]; exact Ne.symm hp)]
      omega
  · change (if s.taskCpu e.p = e.wakerCpu then s.warns else s.warns ++ [(e, s.taskCpu e.p)]) = _
    rw [List.filter_append, h.warns, h.taskCpu]
    split_ifs with hsame
    · rw [List.filter_cons_of_neg (by simpa using hsame), List.filter_nil, List.append_nil]
    · rw [List.filter_cons_of_pos (by simpa using hsame), List.filter_nil]

theorem step_means {e : Label τ} (h : Means s r) (hP : Settled k s e)
    (hstep : step k s e = some t) : ∃ r', r.step k e = some r' ∧ Means t r' := by
  cases e with
  | select w => exact ⟨_, rfl, means_select h hP hstep⟩
  | store cpu =>
      obtain ⟨pending, hpending, rfl⟩ := Option.map_eq_some_iff.mp hstep
      exact ⟨r, rfl, holds_store h.holds hpending, h.usage, h.taskCpu, h.warns⟩
  | settle =>
      obtain ⟨hnil, ht⟩ := means_settle h hP hstep
      refine ⟨_, ?_, ht⟩
      simp only [Rule.step, hnil]
  | judge =>
      obtain ⟨e, rest, hjudging, ht⟩ := means_judge h hstep
      refine ⟨_, ?_, ht⟩
      simp only [Rule.step, hjudging]
  | place p cpu =>
      cases hstep
      exact ⟨_, rfl, h.holds, h.usage, by rw [← h.taskCpu], h.warns⟩

theorem run_means (h : run (step k) s l = some t) (hP : Always (step k) (Settled k) s l)
    (hs : Means s r) : ∃ r', run (Rule.step k) r l = some r' ∧ Means t r' := by
  induction l generalizing s r with
  | nil =>
      cases h
      exact ⟨r, rfl, hs⟩
  | cons e l ih =>
      obtain ⟨u, hu, hrun⟩ := run_cons h
      simp only [Always, hu] at hP
      obtain ⟨r', hr', hmeans⟩ := step_means hs hP.1 hu
      obtain ⟨r'', hr'', ht⟩ := ih hrun hP.2 hmeans
      refine ⟨r'', ?_, ht⟩
      simp only [run, hr']
      exact hr''

/-- The loop of a settle goes on as long as there are samples to judge. -/
theorem judge_enabled_iff (h : Means s r) : (∃ t, step k s .judge = some t) ↔ r.judging ≠ [] := by
  rw [← take_enabled_iff h.holds]
  have htaken := taken_eq h.holds
  simp only [step]
  split
  · rename_i hnone
    rw [htaken] at hnone
    refine iff_of_false (fun ⟨t, ht⟩ => by cases ht) ?_
    rw [take_enabled_iff h.holds, not_not]
    exact List.head?_eq_none_iff.mp hnone
  · constructor
    · rintro ⟨t, ht⟩
      obtain ⟨pending, hpending, -⟩ := Option.map_eq_some_iff.mp ht
      exact ⟨pending, hpending⟩
    · rintro ⟨pending, hpending⟩
      exact ⟨_, by rw [hpending]; rfl⟩

/-- The rule warns of the owed wakeups that land elsewhere, of the first sixteen between two settles,
each once and in order; it holds a reference for every sample it has not judged and no other, and a
settle always comes to its end. -/
theorem warns_of_misplaced (taskCpu : τ → ℕ)
    (h : run (step k) (State.start taskCpu) l = some s)
    (hP : Always (step k) (Settled k) (State.start taskCpu) l) :
    ∃ r, run (Rule.step k) (Rule.start taskCpu) l = some r ∧
      s.warns = r.judged.filter (fun v => decide (v.2 ≠ v.1.wakerCpu)) ∧
      (∀ p, s.usage p = ((r.pending.take kstepWakeups ++ r.judging).map Pending.p).count p) ∧
      ((∃ t, step k s .judge = some t) ↔ r.judging ≠ []) := by
  obtain ⟨r, hr, hs⟩ := run_means h hP (means_start taskCpu)
  exact ⟨r, hr, hs.warns, hs.usage, judge_enabled_iff hs⟩

/-- The wakeup of task `p` by a task alone on `cpu`, with one dequeue delayed there. -/
def wakeupOn (cpu p : ℕ) : Wakeup ℕ := ⟨p, 16, cpu, fun _ => true, 1, 2, 2, 1⟩

def twoWakeups : List (Label ℕ) :=
  [.select (wakeupOn 1 7), .select (wakeupOn 2 8), .place 7 3, .store 2, .place 8 2, .store 1,
    .settle, .judge, .judge]

theorem warns_of_misplaced_twoWakeups :
    Always (step ⟨16, true⟩) (Settled ⟨16, true⟩) (State.start fun _ => 1) twoWakeups ∧
    (run (step ⟨16, true⟩) (State.start fun _ => 1) twoWakeups).map State.warns =
      some [(⟨7, 1⟩, 3)] ∧
    ∀ s, run (step ⟨16, true⟩) (State.start fun _ => 1) twoWakeups = some s →
      ∃ r, run (Rule.step ⟨16, true⟩) (Rule.start fun _ => 1) twoWakeups = some r ∧
        s.warns = r.judged.filter (fun v => decide (v.2 ≠ v.1.wakerCpu)) ∧
        (∀ p, s.usage p = ((r.pending.take kstepWakeups ++ r.judging).map Pending.p).count p) ∧
        ((∃ t, step ⟨16, true⟩ s .judge = some t) ↔ r.judging ≠ []) := by
  have hP : Always (step ⟨16, true⟩) (Settled ⟨16, true⟩) (State.start fun _ => 1) twoWakeups := by
    refine ⟨fun _ => ⟨rfl, by decide⟩, fun _ => ⟨rfl, by decide⟩, trivial, trivial, trivial, trivial, ?_⟩
    refine ⟨fun i => ?_, trivial, trivial, trivial⟩
    match i with
    | 0 | 1 | 2 | _ + 3 => rfl
  exact ⟨hP, by decide, fun s h => warns_of_misplaced _ h hP⟩

end KStep.SyncWakeup
