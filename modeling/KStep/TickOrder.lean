import KStep.Controller

/-!
# The order of the scheduler's work within a tick

A tick calls the handler of one test CPU after the other and settles only before the first and
after the last. The context switch that a CPU's handler asked for is that CPU's own step, so it
falls anywhere between its handler and the end. The handlers and switches are arbitrary functions
on an arbitrary scheduler state; `trace` records the order in which they ran.
-/

namespace KStep

open Runs

variable {σ : Type}

inductive TickOp
  | tick (cpu : ℕ)
  | resched (cpu : ℕ)
  deriving DecidableEq, Repr

/-- The tick handler, with the drained softirq, and the context switch of each CPU. -/
structure SchedWork (σ : Type) where
  tick : ℕ → σ → σ
  resched : ℕ → σ → σ

def SchedWork.apply (w : SchedWork σ) (s : σ) : TickOp → σ
  | .tick c => w.tick c s
  | .resched c => w.resched c s

structure TickState (σ : Type) where
  sched : σ
  pending : ℕ → Bool
  trace : List TickOp

variable (w : SchedWork σ) (asks : ℕ → Bool)

def TickState.perform (s : TickState σ) (o : TickOp) (pending : ℕ → Bool) : TickState σ where
  sched := w.apply s.sched o
  pending := pending
  trace := s.trace ++ [o]

/-- `kstep_tick` calls and polls; `asks c` is whether the tick of `c` asks for a reschedule. -/
def tickOp (s : TickState σ) (o : Op) (_ : Unit) : Option (TickState σ) :=
  match o with
  | .call c => some
      (s.perform w (.tick c) (Function.update s.pending c (s.pending c || asks c)))
  | .poll c => if s.pending c then none else some s
  | _ => none

def tickEnv (s : TickState σ) (c : ℕ) : Option (TickState σ) :=
  if s.pending c then some (s.perform w (.resched c) (Function.update s.pending c false)) else none

abbrev TickLabel := Label Op Unit ℕ

def tickStep : TickState σ × List Op → TickLabel → Option (TickState σ × List Op) :=
  interleave (tickOp w asks) (tickEnv w)

def TickState.start (s : σ) : TickState σ := ⟨s, fun _ => false, []⟩

/-- A tick on test CPUs `1..k` from scheduler state `s` can end in `t`. -/
def Ticks (k : ℕ) (s : σ) (t : TickState σ) : Prop :=
  ∃ l, run (tickStep w asks) (TickState.start s, kstepTick k) l = some (t, [])

/-- Any two runs of a tick from one state order the work alike, and so end alike. -/
def TickDeterministic (k : ℕ) : Prop :=
  ∀ (σ : Type) (w : SchedWork σ) (s : σ) (t t' : TickState σ), Ticks w asks k s t →
    Ticks w asks k s t' → t.trace = t'.trace ∧ t.sched = t'.sched

def Op.called : Op → Option ℕ
  | .call c => some c
  | _ => none

def ticksLeft (prog : List Op) : List ℕ := prog.filterMap Op.called

section Order

variable {w asks} {k c : ℕ} {prog : List Op} {r : List ℕ}

theorem tickStep_cases {s s' : TickState σ} {prog' : List Op} {e : TickLabel}
    (h : tickStep w asks (s, prog) e = some (s', prog')) :
    (∃ c, prog = .call c :: prog' ∧ s' =
        s.perform w (.tick c) (Function.update s.pending c (s.pending c || asks c))) ∨
      (∃ c, prog = .poll c :: prog' ∧ s.pending c = false ∧ s' = s) ∨
      ∃ c, prog' = prog ∧ s.pending c = true ∧
        s' = s.perform w (.resched c) (Function.update s.pending c false) := by
  rcases interleave_cases h with ⟨o, x, -, rfl, hop⟩ | ⟨c, -, rfl, henv⟩
  · rcases o with _ | _ | _ | c | c | _
    · cases hop
    · cases hop
    · cases hop
    · cases hop
      exact Or.inl ⟨c, rfl, rfl⟩
    · simp only [tickOp] at hop
      split_ifs at hop with hc
      cases hop
      exact Or.inr (Or.inl ⟨c, rfl, by simpa using hc, rfl⟩)
    · cases hop
  · simp only [tickEnv] at henv
    split_ifs at henv with hc
    cases henv
    exact Or.inr (Or.inr ⟨c, rfl, hc, rfl⟩)

@[simp] theorem ticksLeft_nil : ticksLeft [] = [] := rfl

@[simp] theorem ticksLeft_call : ticksLeft (.call c :: prog) = c :: ticksLeft prog := rfl

@[simp] theorem ticksLeft_poll : ticksLeft (.poll c :: prog) = ticksLeft prog := rfl

theorem ticksLeft_suffix {prog' : List Op} (h : prog <:+ prog') :
    ticksLeft prog <:+ ticksLeft prog' :=
  h.filterMap Op.called

theorem ticksLeft_settle : ticksLeft (kstepSettle k) = [] := by
  simp [ticksLeft, kstepSettle, Op.called]

theorem ticksLeft_tick : ticksLeft (kstepTick k) = testCpuList k := by
  have hcalls : ticksLeft ((testCpuList k).map .call) = testCpuList k := by
    simp [ticksLeft, List.filterMap_map, Function.comp_def, Op.called]
  have happend (l l' : List Op) : ticksLeft (l ++ l') = ticksLeft l ++ ticksLeft l' :=
    List.filterMap_append
  rw [kstepTick, happend, happend, ticksLeft_settle, hcalls, List.nil_append, List.append_nil]

theorem testCpuList_suffix (h : c :: r <:+ testCpuList k) :
    1 ≤ c ∧ c ≤ k ∧ r = List.range' (c + 1) (k - c) := by
  obtain ⟨x, hx⟩ := h
  obtain ⟨j, hj, -, hcons⟩ := List.range'_eq_append_iff.mp hx.symm
  obtain ⟨hc, hlt, hr⟩ := List.range'_eq_cons_iff.mp hcons.symm
  refine ⟨by omega, by omega, ?_⟩
  rw [hr]
  congr 1
  omega

/-- While a tick is still to be called, so is every poll of the last settle. -/
theorem poll_mem_of_ticksLeft (h : prog <:+ kstepTick k) (hleft : ticksLeft prog ≠ [])
    (hc : c ∈ testCpuList k) : .poll c ∈ prog := by
  rcases List.suffix_or_suffix_of_suffix h (List.suffix_append _ (kstepSettle k)) with h | h
  · have hnil := ticksLeft_suffix h
    rw [ticksLeft_settle] at hnil
    exact absurd (List.suffix_nil.mp hnil) hleft
  · exact h.subset (List.mem_map.mpr ⟨c, hc, rfl⟩)

def lastSwitch (asks : ℕ → Bool) (k : ℕ) (due : Bool) : List TickOp :=
  if asks k && due then [.resched k] else []

/-- The only order possible when no CPU but the last asks for a reschedule. -/
def tickOrder (asks : ℕ → Bool) (k : ℕ) : List TickOp :=
  (testCpuList k).map .tick ++ lastSwitch asks k (k ∈ testCpuList k)

/-- What has run, with what the program and the pending switch still stand for, is that order. -/
structure InOrder (asks : ℕ → Bool) (k : ℕ) (s : TickState σ × List Op) : Prop where
  suffix : s.2 <:+ kstepTick k
  pending : ∀ c, s.1.pending c = true → c = k ∧ asks k = true ∧ ticksLeft s.2 = [] ∧ .poll k ∈ s.2
  trace : s.1.trace ++ ((ticksLeft s.2).map .tick ++
    lastSwitch asks k (s.1.pending k || decide (k ∈ ticksLeft s.2))) = tickOrder asks k

theorem inOrder_start (s : σ) : InOrder asks k (TickState.start s, kstepTick k) where
  suffix := List.suffix_rfl
  pending c hc := absurd hc (by simp [TickState.start])
  trace := by
    rw [ticksLeft_tick]
    simp [TickState.start, tickOrder]

theorem lastSwitch_call (asks : ℕ → Bool) (hk : c ≤ k) (hr : r = List.range' (c + 1) (k - c))
    {pending : ℕ → Bool} (hnone : ∀ d, pending d = false) :
    lastSwitch asks k (Function.update pending c (pending c || asks c) k || decide (k ∈ r)) =
      lastSwitch asks k (pending k || decide (k ∈ c :: r)) := by
  rcases hk.eq_or_lt with rfl | hlt
  · simp [lastSwitch, hr, hnone]
  · have hmem : k ∈ r := by
      rw [hr, List.mem_range'_1]
      omega
    simp [hmem]

theorem InOrder.call (hasks : ∀ c, 1 ≤ c → c < k → asks c = false) {s : TickState σ}
    (hs : InOrder asks k (s, .call c :: prog)) :
    InOrder asks k
      (s.perform w (.tick c) (Function.update s.pending c (s.pending c || asks c)), prog) := by
  have hleft := ticksLeft_suffix hs.suffix
  rw [ticksLeft_tick, ticksLeft_call] at hleft
  obtain ⟨hc, hk, hr⟩ := testCpuList_suffix hleft
  have hnone (d : ℕ) : s.pending d = false := by
    by_contra hd
    have hnil := (hs.pending d (by simpa using hd)).2.2.1
    simp at hnil
  refine ⟨(List.suffix_cons _ prog).trans hs.suffix, fun d hd => ?_, ?_⟩
  · have hdc : d = c := by
      by_contra hdc
      simp [TickState.perform, Function.update_of_ne hdc, hnone] at hd
    have hask : asks c = true := by simpa [TickState.perform, hdc, hnone] using hd
    have hck : c = k := by
      by_contra hck
      exact absurd (hask.symm.trans (hasks c hc (lt_of_le_of_ne hk hck))) (by simp)
    have hpoll := poll_mem_of_ticksLeft (c := k) hs.suffix (by simp)
      (List.mem_range'_1.mpr (by omega))
    subst hck
    exact ⟨hdc, hask, by simpa using hr, by simpa using hpoll⟩
  · rw [← hs.trace]
    have hlast := lastSwitch_call asks hk hr hnone
    simp only [TickState.perform, ticksLeft_call, hlast, List.map_cons, List.append_assoc,
      List.cons_append, List.nil_append]
    rfl

theorem InOrder.poll {s : TickState σ} (hs : InOrder asks k (s, .poll c :: prog))
    (hc : s.pending c = false) : InOrder asks k (s, prog) := by
  refine ⟨(List.suffix_cons _ prog).trans hs.suffix, fun d hd => ?_, ?_⟩
  · obtain ⟨rfl, hask, hleft, hpoll⟩ := hs.pending d hd
    have hdc : d ≠ c := by
      rintro rfl
      exact absurd (hd.symm.trans hc) (by simp)
    exact ⟨rfl, hask, hleft, by simpa [hdc] using hpoll⟩
  · exact hs.trace

theorem InOrder.resched {s : TickState σ} (hs : InOrder asks k (s, prog))
    (hc : s.pending c = true) :
    InOrder asks k (s.perform w (.resched c) (Function.update s.pending c false), prog) := by
  obtain ⟨rfl, hask, hleft, -⟩ := hs.pending c hc
  refine ⟨hs.suffix, fun d hd => ?_, ?_⟩
  · by_cases hdc : d = c
    · simp [TickState.perform, hdc] at hd
    · refine absurd (hs.pending d ?_).1 hdc
      simpa [TickState.perform, Function.update_of_ne hdc] using hd
  · rw [← hs.trace]
    simp [TickState.perform, lastSwitch, hleft, hc, hask]

theorem inOrder_step (hasks : ∀ c, 1 ≤ c → c < k → asks c = false) (s : TickState σ × List Op)
    (e : TickLabel) (s' : TickState σ × List Op) (h : tickStep w asks s e = some s')
    (hs : InOrder asks k s) : InOrder asks k s' := by
  obtain ⟨s, prog⟩ := s
  obtain ⟨s', prog'⟩ := s'
  rcases tickStep_cases h with ⟨c, rfl, rfl⟩ | ⟨c, rfl, hc, rfl⟩ | ⟨c, rfl, hc, rfl⟩
  · exact hs.call hasks
  · exact hs.poll hc
  · exact hs.resched hc

theorem ticks_trace (hasks : ∀ c, 1 ≤ c → c < k → asks c = false) {s : σ} {t : TickState σ}
    (h : Ticks w asks k s t) : t.trace = tickOrder asks k := by
  obtain ⟨l, hrun⟩ := h
  have hend := run_invariant (inOrder_step hasks) hrun (inOrder_start s)
  have hnone : t.pending k = false := by
    by_contra hpending
    have hmem := (hend.pending k (by simpa using hpending)).2.2.2
    simp at hmem
  simpa [ticksLeft, lastSwitch, hnone] using hend.trace

/-- The trace says which functions were applied. -/
theorem tickStep_sched {s₀ : σ} (s : TickState σ × List Op) (e : TickLabel)
    (s' : TickState σ × List Op) (h : tickStep w asks s e = some s')
    (hs : s.1.sched = s.1.trace.foldl w.apply s₀) :
    s'.1.sched = s'.1.trace.foldl w.apply s₀ := by
  have hperform (s : TickState σ) (hs : s.sched = s.trace.foldl w.apply s₀) (o : TickOp)
      (pending : ℕ → Bool) :
      (s.perform w o pending).sched = (s.perform w o pending).trace.foldl w.apply s₀ := by
    simp [TickState.perform, hs]
  obtain ⟨s, prog⟩ := s
  obtain ⟨s', prog'⟩ := s'
  rcases tickStep_cases h with ⟨c, rfl, rfl⟩ | ⟨c, rfl, hc, rfl⟩ | ⟨c, rfl, hc, rfl⟩
  · exact hperform s hs _ _
  · exact hs
  · exact hperform s hs _ _

theorem ticks_sched {s : σ} {t : TickState σ} (h : Ticks w asks k s t) :
    t.sched = t.trace.foldl w.apply s := by
  obtain ⟨l, hrun⟩ := h
  exact run_invariant (I := fun s' => s'.1.sched = s'.1.trace.foldl w.apply s) tickStep_sched hrun
    rfl

end Order

end KStep
