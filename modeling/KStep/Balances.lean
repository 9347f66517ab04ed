import KStep.Balancer

/-!
# The balance rule

A CPU that balances a domain goes through `sched_balance_rq`, and through `find_busiest_group` once
`should_we_balance` has elected it, possibly more than once. The first function's hook stashes what
it is called with on the CPU that runs it, and the second's raises the event from the stash; the
rule then looks at the CPU's group. The hooks may be armed while CPUs balance. Every event is about
the balance its CPU is in, and a kernel that elects as `should_we_balance` does is never accused.
-/

namespace KStep.Balances

open Runs Shm

/-- What `nr_running` and `idle_cpu()` read of a runqueue. -/
structure Rq where
  nrRunning : ℕ
  currIdle : Bool
  ttwuPending : Bool

def Rq.idle (rq : Rq) : Bool := rq.currIdle && rq.nrRunning == 0 && !rq.ttwuPending

/-- What is read of a sched domain: the span and the balance mask of its first group, which is the
CPU's own, and whether its CPUs share capacity. -/
structure Domain where
  span : Finset ℕ
  balanceMask : Finset ℕ
  shares : Bool

/-- The CPU accused, its `nr_running`, and the idle CPU of its group. -/
structure Accusation where
  cpu : ℕ
  nrRunning : ℕ
  idle : ℕ
  deriving DecidableEq, Repr

def onBalance (rq : ℕ → Rq) (cpu : ℕ) (sd : Domain) : Option Accusation :=
  if (rq cpu).nrRunning = 0 ∨ cpu ∉ sd.span then none
  else (sd.span.sort.find? fun i => (rq i).nrRunning == 0).map fun i => ⟨cpu, (rq cpu).nrRunning, i⟩

/-- The CPU that `sched_balance_rq` balances for, and the domain. -/
abbrev Call := ℕ × Domain

/-- The runqueues, the mocked jiffies, the hooks armed so far, the call each CPU is in, the stash of
each, `none` for the zero it starts with, and the rule's warnings. -/
structure State where
  rq : ℕ → Rq
  jiffies : ℕ
  enterHooked : Bool
  selectedHooked : Bool
  call : ℕ → Option Call
  stash : ℕ → Option Call
  warns : List Accusation

inductive Label
  /-- the scheduler does anything else -/
  | schedule (rq : ℕ → Rq)
  | tick
  /-- `kstep_hook` on `sched_balance_rq` and on `find_busiest_group` -/
  | hookEnter
  | hookSelected
  /-- `cpu` enters `sched_balance_rq`, for itself or for another -/
  | enter (cpu : ℕ) (call : Call)
  /-- `should_we_balance` has elected it, and it enters `find_busiest_group` -/
  | selected (cpu : ℕ)
  | leave (cpu : ℕ)

def onSchedBalanceEnter (s : State) (cpu : ℕ) (call : Call) : State :=
  if call.1 = 0 ∨ s.jiffies = 0 then s
  else { s with stash := Function.update s.stash cpu (some call) }

/-- `on_sched_balance_selected`, with the rule as the event's callback. -/
def onSchedBalanceSelected (s : State) (cpu : ℕ) : State :=
  match s.stash cpu with
  | none => s
  | some (dst, sd) =>
      if s.jiffies = 0 then s else { s with warns := s.warns ++ (onBalance s.rq dst sd).toList }

def step (s : State) : Label → Option State
  | .schedule rq => some { s with rq := rq }
  | .tick => some { s with jiffies := s.jiffies + 1 }
  | .hookEnter => some { s with enterHooked := true }
  | .hookSelected => if s.enterHooked then some { s with selectedHooked := true } else none
  | .enter cpu call =>
      if s.call cpu = none then
        let s := { s with call := Function.update s.call cpu (some call) }
        some (if s.enterHooked then onSchedBalanceEnter s cpu call else s)
      else none
  | .selected cpu =>
      if (s.call cpu).isSome then
        some (if s.selectedHooked then onSchedBalanceSelected s cpu else s)
      else none
  | .leave cpu =>
      if (s.call cpu).isSome then some { s with call := Function.update s.call cpu none } else none

def State.boot (rq : ℕ → Rq) : State where
  rq := rq
  jiffies := 0
  enterHooked := false
  selectedHooked := false
  call _ := none
  stash _ := none
  warns := []

/-- What the rule is to watch: as `State`, with each CPU's call marked when it was entered in the
run of the mocked clock and with its function hooked. -/
structure Watch where
  rq : ℕ → Rq
  jiffies : ℕ
  enterHooked : Bool
  selectedHooked : Bool
  call : ℕ → Option (Call × Bool)
  warns : List Accusation

/-- An elected CPU is judged by the call it is in, when that was seen from its start. -/
def watchStep (s : Watch) : Label → Option Watch
  | .schedule rq => some { s with rq := rq }
  | .tick => some { s with jiffies := s.jiffies + 1 }
  | .hookEnter => some { s with enterHooked := true }
  | .hookSelected => if s.enterHooked then some { s with selectedHooked := true } else none
  | .enter cpu call =>
      if s.call cpu = none then
        some { s with
          call := Function.update s.call cpu (some (call, s.enterHooked && 0 < s.jiffies)) }
      else none
  | .selected cpu => match s.call cpu with
    | none => none
    | some ((dst, sd), seen) => some (if s.selectedHooked && seen then
        { s with warns := s.warns ++ (onBalance s.rq dst sd).toList } else s)
  | .leave cpu =>
      if (s.call cpu).isSome then some { s with call := Function.update s.call cpu none } else none

def State.watch (s : State) : Watch where
  rq := s.rq
  jiffies := s.jiffies
  enterHooked := s.enterHooked
  selectedHooked := s.selectedHooked
  call cpu := (s.call cpu).map fun call => (call, (s.stash cpu).isSome)
  warns := s.warns

/-- Once the mocked clock runs no balance is for the controller's CPU, which the topology leaves in
no domain. -/
def Spares (s : State) : Label → Prop
  | .enter _ call => call.1 ≠ 0 ∨ s.jiffies = 0
  | _ => True

instance decidableSpares (s : State) : (e : Label) → Decidable (Spares s e)
  | .enter _ call => inferInstanceAs (Decidable (call.1 ≠ 0 ∨ s.jiffies = 0))
  | .schedule _ => isTrue trivial
  | .tick => isTrue trivial
  | .hookEnter => isTrue trivial
  | .hookSelected => isTrue trivial
  | .selected _ => isTrue trivial
  | .leave _ => isTrue trivial

/-- A CPU's stash is the call it is in, and there is none before both the hook and the clock. -/
structure Stashed (s : State) : Prop where
  own : ∀ cpu call call', s.stash cpu = some call → s.call cpu = some call' → call = call'
  early : ∀ cpu, s.enterHooked = false ∨ s.jiffies = 0 → s.stash cpu = none
  hooked : s.selectedHooked = true → s.enterHooked = true

variable {s t : State} {e : Label} {l : List Label} {rq : ℕ → Rq}

theorem boot_stashed : Stashed (State.boot rq) where
  own _ _ _ h := by cases h
  early _ _ := rfl
  hooked h := by cases h

theorem enter_stash {cpu : ℕ} {call : Call} (hspares : call.1 ≠ 0 ∨ s.jiffies = 0) :
    onSchedBalanceEnter s cpu call =
      if s.jiffies = 0 then s else { s with stash := Function.update s.stash cpu (some call) } := by
  unfold onSchedBalanceEnter
  by_cases hj : s.jiffies = 0
  · rw [if_pos (Or.inr hj), if_pos hj]
  · rw [if_neg (not_or.mpr ⟨hspares.resolve_right hj, hj⟩), if_neg hj]

/-- A call that is not stashed is one for which there is nothing stashed yet. -/
theorem watch_enter {cpu : ℕ} {call : Call} (hstash : s.stash cpu = none) :
    (fun c => (Function.update s.call cpu (some call) c).map fun call' =>
        (call', (s.stash c).isSome)) =
      Function.update s.watch.call cpu (some (call, false)) := by
  funext c
  rcases eq_or_ne c cpu with rfl | hc
  · simp [hstash]
  · simp [State.watch, hc]

theorem watch_enter_stashed {cpu : ℕ} {call : Call} :
    (fun c => (Function.update s.call cpu (some call) c).map fun call' =>
        (call', (Function.update s.stash cpu (some call) c).isSome)) =
      Function.update s.watch.call cpu (some (call, true)) := by
  funext c
  rcases eq_or_ne c cpu with rfl | hc
  · simp
  · simp [State.watch, hc]

theorem Stashed.own_enter {cpu : ℕ} {call : Call} (hs : Stashed s) (hstash : s.stash cpu = none)
    (c : ℕ) (a b : Call) (ha : s.stash c = some a)
    (hb : Function.update s.call cpu (some call) c = some b) : a = b := by
  rcases eq_or_ne c cpu with rfl | hc
  · rw [hstash] at ha
    cases ha
  · exact hs.own c a b ha (by simpa [hc] using hb)

/-- What a CPU enters is stashed, unless nothing has been stashed yet. -/
theorem enter_watch {cpu : ℕ} {call : Call} (hspares : call.1 ≠ 0 ∨ s.jiffies = 0)
    (h : step s (.enter cpu call) = some t) (hs : Stashed s) :
    Stashed t ∧ watchStep s.watch (.enter cpu call) = some t.watch := by
  simp only [step] at h
  rw [@enter_stash { s with call := Function.update s.call cpu (some call) } _ _ hspares] at h
  dsimp only at h
  split_ifs at h with hcall hhook hj
  · -- hooked, but the clock does not run
    cases h
    have hstash := hs.early cpu (Or.inr hj)
    refine ⟨⟨hs.own_enter hstash, hs.early, hs.hooked⟩, ?_⟩
    simp only [watchStep, State.watch, hcall, Option.map_none, if_true, watch_enter hstash]
    simp [hj]
  · cases h
    refine ⟨⟨fun c a b ha hb => ?_, fun c hc => ?_, hs.hooked⟩, ?_⟩
    · rcases eq_or_ne c cpu with rfl | hc
      · simp only [Function.update_self, Option.some.injEq] at ha hb
        rw [← ha, ← hb]
      · exact hs.own c a b (by simpa [hc] using ha) (by simpa [hc] using hb)
    · rcases hc with hc | hc
      · exact absurd (hhook.symm.trans hc) Bool.noConfusion
      · exact absurd hc hj
    · simp only [watchStep, State.watch, hcall, Option.map_none, if_true, watch_enter_stashed]
      simp [hhook, Nat.pos_of_ne_zero hj]
  · cases h
    have hhook' : s.enterHooked = false := by simpa using hhook
    have hstash := hs.early cpu (Or.inl hhook')
    refine ⟨⟨hs.own_enter hstash, hs.early, hs.hooked⟩, ?_⟩
    simp only [watchStep, State.watch, hcall, Option.map_none, if_true, watch_enter hstash]
    simp [hhook']

/-- The event is about the call that the CPU is in. -/
theorem selected_watch {cpu : ℕ} (h : step s (.selected cpu) = some t) (hs : Stashed s) :
    Stashed t ∧ watchStep s.watch (.selected cpu) = some t.watch := by
  simp only [step] at h
  split_ifs at h with hcall hhook
  · obtain ⟨call, hcall⟩ := Option.isSome_iff_exists.mp hcall
    have hw : s.watch.call cpu = some (call, (s.stash cpu).isSome) := by
      simp only [State.watch, hcall, Option.map_some]
    simp only [onSchedBalanceSelected] at h
    split at h
    · rename_i hstash
      cases h
      refine ⟨hs, ?_⟩
      simp only [watchStep, hw, hstash, Option.isSome_none, Bool.and_false, Bool.false_eq_true,
        if_false]
    · rename_i dst sd hstash
      have hj : s.jiffies ≠ 0 := fun hj => by
        rw [hs.early cpu (Or.inr hj)] at hstash
        cases hstash
      rw [if_neg hj] at h
      cases h
      obtain rfl := hs.own cpu _ _ hstash hcall
      refine ⟨⟨hs.own, hs.early, hs.hooked⟩, ?_⟩
      have hhook' : s.watch.selectedHooked = true := hhook
      simp only [watchStep, hw, hstash, Option.isSome_some, Bool.and_true]
      rw [if_pos hhook']
      rfl
  · cases h
    obtain ⟨call, hcall⟩ := Option.isSome_iff_exists.mp hcall
    refine ⟨hs, ?_⟩
    simp [watchStep, State.watch, hcall, hhook]

theorem leave_watch {cpu : ℕ} (h : step s (.leave cpu) = some t) (hs : Stashed s) :
    Stashed t ∧ watchStep s.watch (.leave cpu) = some t.watch := by
  simp only [step] at h
  split_ifs at h with hcall
  cases h
  refine ⟨⟨fun c a b ha hb => ?_, hs.early, hs.hooked⟩, ?_⟩
  · rcases eq_or_ne c cpu with rfl | hc
    · simp at hb
    · exact hs.own c a b ha (by simpa [hc] using hb)
  · simp only [watchStep, State.watch, Option.isSome_map, hcall, if_true]
    congr 2
    funext c
    rcases eq_or_ne c cpu with rfl | hc
    · simp
    · simp [hc]

theorem step_watch (hspares : Spares s e) (h : step s e = some t) (hs : Stashed s) :
    Stashed t ∧ watchStep s.watch e = some t.watch := by
  cases e with
  | schedule rq =>
      cases h
      exact ⟨⟨hs.own, hs.early, hs.hooked⟩, rfl⟩
  | tick =>
      cases h
      refine ⟨⟨hs.own, fun cpu hearly => ?_, hs.hooked⟩, rfl⟩
      rcases hearly with hhook | hj
      · exact hs.early cpu (Or.inl hhook)
      · exact absurd hj (Nat.succ_ne_zero _)
  | hookEnter =>
      cases h
      refine ⟨⟨hs.own, fun cpu hearly => ?_, fun _ => rfl⟩, rfl⟩
      rcases hearly with hhook | hj
      · cases hhook
      · exact hs.early cpu (Or.inr hj)
  | hookSelected =>
      simp only [step] at h
      split_ifs at h with hhook
      cases h
      refine ⟨⟨hs.own, hs.early, fun _ => hhook⟩, ?_⟩
      simp [watchStep, State.watch, hhook]
  | enter cpu call => exact enter_watch hspares h hs
  | selected cpu => exact selected_watch h hs
  | leave cpu => exact leave_watch h hs

/-- Every warning is about a balance seen from its start, and every elected CPU of such a balance is
judged: what the rule warns of is what it would with each CPU's call at hand. -/
theorem warns_of_elected (h : run step (State.boot rq) l = some t)
    (hspares : Always step Spares (State.boot rq) l) :
    run watchStep (State.boot rq).watch l = some t.watch :=
  run_map State.watch (fun _ _ _ => step_watch) h hspares boot_stashed

/-- A group of two CPUs, and a CPU 1 with two tasks that balances beside its idle sibling. -/
def pair : Domain := ⟨{1, 2}, {1, 2}, true⟩

def busyPair (cpu : ℕ) : Rq := if cpu = 1 then ⟨2, false, false⟩ else ⟨0, true, false⟩

def busyBalances : List Label :=
  [.hookEnter, .hookSelected, .enter 2 (2, pair), .tick, .selected 2, .enter 1 (1, pair), .leave 2,
    .enter 2 (2, pair), .selected 1, .selected 2, .leave 1]

theorem onBalance_busyPair : onBalance busyPair 1 pair = some ⟨1, 2, 2⟩ := by
  have hspan : pair.span = [1, 2].toFinset := by decide
  have hsort : [1, 2].toFinset.sort = [1, 2] :=
    (List.toFinset_sort (· ≤ ·) (by decide)).mpr (by decide)
  unfold onBalance
  rw [hspan, hsort]
  decide

theorem warns_of_elected_pair : ∃ t, run step (State.boot busyPair) busyBalances = some t ∧
    run watchStep (State.boot busyPair).watch busyBalances = some t.watch ∧
      t.warns = [⟨1, 2, 2⟩] := by
  refine ⟨_, rfl, warns_of_elected rfl (by decide), ?_⟩
  change (onBalance busyPair 1 pair).toList ++ (onBalance busyPair 2 pair).toList = _
  rw [onBalance_busyPair]
  rfl

/-- What the kernel has decided where `find_busiest_group` is entered: a CPU that is out of tasks
pulls for itself, another was elected by `should_we_balance`. -/
def Elected (siblings : ℕ → Finset ℕ) (s : State) : Label → Prop
  | .selected cpu => ∀ dst sd, s.call cpu = some (dst, sd) →
      (s.rq dst).nrRunning = 0 ∨
        Chooses sd.balanceMask (fun c => (s.rq c).idle = true) siblings (sd.shares = true) dst
  | _ => True

/-- No CPU of the elected CPU's group is between idle and busy, or has no say in its group. -/
def Settled (s : State) : Label → Prop
  | .selected cpu => ∀ dst sd, s.call cpu = some (dst, sd) →
      ∀ c ∈ sd.span, (s.rq c).nrRunning = 0 → c ∈ sd.balanceMask ∧ (s.rq c).idle = true
  | _ => True

theorem Rq.nrRunning_of_idle {r : Rq} (h : r.idle = true) : r.nrRunning = 0 := by
  simp only [Rq.idle, Bool.and_eq_true, beq_iff_eq] at h
  exact h.1.2

/-- An elected CPU is idle, unless no CPU of the mask is. -/
theorem chooses_idle {mask : Finset ℕ} {idle : ℕ → Prop} {siblings : ℕ → Finset ℕ} {shares : Prop}
    {c : ℕ} (h : Chooses mask idle siblings shares c) : idle c ∨ ∀ c' ∈ mask, ¬ idle c' := by
  cases h with
  | idleThread _ h => exact Or.inl h.1.2
  | idleCore _ h => exact Or.inl h.1.2.1
  | busyCore _ _ h => exact Or.inl h.1.2
  | noneIdle hnone _ => exact Or.inr hnone

theorem onBalance_elected {siblings : ℕ → Finset ℕ} {rq : ℕ → Rq} {dst : ℕ} {sd : Domain}
    (helected : (rq dst).nrRunning = 0 ∨
      Chooses sd.balanceMask (fun c => (rq c).idle = true) siblings (sd.shares = true) dst)
    (hsettled : ∀ c ∈ sd.span, (rq c).nrRunning = 0 → c ∈ sd.balanceMask ∧ (rq c).idle = true) :
    onBalance rq dst sd = none := by
  unfold onBalance
  split_ifs with hskip
  · rfl
  · have hbusy : (rq dst).nrRunning ≠ 0 := fun h => hskip (Or.inl h)
    rw [Option.map_eq_none_iff, List.find?_eq_none]
    intro c hc hempty
    obtain ⟨hmask, hidle⟩ := hsettled c ((Finset.mem_sort _).mp hc) (beq_iff_eq.mp hempty)
    rcases chooses_idle (helected.resolve_left hbusy) with hdst | hnone
    · exact hbusy (Rq.nrRunning_of_idle hdst)
    · exact hnone c hmask hidle

theorem onSchedBalanceSelected_eq_self {cpu : ℕ}
    (hnone : ∀ dst sd, s.stash cpu = some (dst, sd) → onBalance s.rq dst sd = none) :
    onSchedBalanceSelected s cpu = s := by
  unfold onSchedBalanceSelected
  split
  · rfl
  · rename_i dst sd hstash
    rw [hnone dst sd hstash, Option.toList_none, List.append_nil, ite_self]

theorem step_silent {siblings : ℕ → Finset ℕ}
    (hP : Spares s e ∧ Elected siblings s e ∧ Settled s e) (h : step s e = some t)
    (hs : Stashed s ∧ s.warns = []) : Stashed t ∧ t.warns = [] := by
  refine ⟨(step_watch hP.1 h hs.1).1, ?_⟩
  cases e with
  | schedule rq =>
      cases h
      exact hs.2
  | tick =>
      cases h
      exact hs.2
  | hookEnter =>
      cases h
      exact hs.2
  | hookSelected =>
      simp only [step] at h
      split_ifs at h
      cases h
      exact hs.2
  | enter cpu call =>
      simp only [step] at h
      rw [@enter_stash { s with call := Function.update s.call cpu (some call) } _ _ hP.1] at h
      split_ifs at h <;> cases h <;> exact hs.2
  | selected cpu =>
      simp only [step] at h
      split_ifs at h with hcall
      · cases h
        obtain ⟨call, hcall⟩ := Option.isSome_iff_exists.mp hcall
        rw [onSchedBalanceSelected_eq_self]
        · exact hs.2
        · intro dst sd hstash
          obtain rfl := hs.1.own cpu _ _ hstash hcall
          exact onBalance_elected (hP.2.1 dst sd hcall) (hP.2.2 dst sd hcall)
      · cases h
        exact hs.2
  | leave cpu =>
      simp only [step] at h
      split_ifs at h
      cases h
      exact hs.2

/-- A kernel that elects as `should_we_balance` does is never accused. -/
theorem elected_silent {siblings : ℕ → Finset ℕ} (h : run step (State.boot rq) l = some t)
    (hP : Always step (fun s e => Spares s e ∧ Elected siblings s e ∧ Settled s e)
      (State.boot rq) l) : t.warns = [] :=
  (run_invariant_of_always (I := fun s => Stashed s ∧ s.warns = [])
    (fun _ _ _ => step_silent) h hP ⟨boot_stashed, rfl⟩).2

def bothBusy (cpu : ℕ) : Rq := ⟨if cpu = 1 then 2 else 1, false, false⟩

def busyPulls : List Label := [.hookEnter, .hookSelected, .tick, .enter 1 (1, pair), .selected 1]

theorem elected_silent_pair :
    ∃ t, run step (State.boot bothBusy) busyPulls = some t ∧ t.warns = [] := by
  refine ⟨_, rfl, @elected_silent _ busyPulls _ (fun _ => {1, 2}) rfl ?_⟩
  refine ⟨⟨trivial, trivial, trivial⟩, ⟨trivial, trivial, trivial⟩, ⟨trivial, trivial, trivial⟩,
    ⟨?_, trivial, trivial⟩, ⟨trivial, ?_, ?_⟩, trivial⟩
  · exact Or.inl Nat.one_ne_zero
  · intro dst sd hcall
    cases hcall
    refine Or.inr (.noneIdle ?_ ⟨by decide, fun c hc => ?_⟩)
    · change ∀ c ∈ ({1, 2} : Finset ℕ), ¬ (bothBusy c).idle = true
      decide
    · have hpos : ∀ c ∈ ({1, 2} : Finset ℕ), 1 ≤ c := by decide
      exact hpos c hc
  · intro dst sd hcall
    cases hcall
    change ∀ c ∈ ({1, 2} : Finset ℕ), (bothBusy c).nrRunning = 0 →
      c ∈ ({1, 2} : Finset ℕ) ∧ (bothBusy c).idle = true
    decide

end KStep.Balances
