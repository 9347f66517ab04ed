import KStep.Events

/-!
# The traced functions

Every hook shares one ftrace ops, and `kstep_dispatch` finds the hook of a traced location in a table
that `kstep_hook` extends while functions are being traced: it stores the entry, counts it and only
then lets ftrace report the location. So a dispatch always finds the hook of its location, however
the two fall together.
-/

namespace KStep.Trace

open PublishedTable Runs

inductive HookFunc
  | onSchedBalanceEnter
  | onSchedBalanceSelected
  | onSelectTaskRq
  | onSetTaskCpu
  | onSchedGroupAlloc
  deriving DecidableEq, Repr

structure KstepHook where
  name : String
  func : HookFunc
  ip : UInt64
  deriving DecidableEq, Repr

/-- The kernel's symbols, and the location ftrace reports for a function it can trace. -/
structure Kernel where
  ksym : String → Bool
  location : String → Option UInt64

def hooksSize : ℕ := 8

abbrev Hooks := Table KstepHook hooksSize

/-- How far `kstep_hook` comes with a function. -/
inductive Hooking
  /-- it is traced already, or the table is full and the kernel warns -/
  | nothing
  /-- `Cannot trace %s` -/
  | panic
  | stored (hooks : Hooks)

/-- `kstep_hook` up to its release store. -/
def hookStore (k : Kernel) (hooks : Hooks) (name : String) (func : HookFunc) : Hooking :=
  if (List.range hooks.n).any fun i => decide ((hooks.at i).map KstepHook.name = some name) then
    .nothing
  else if hooks.n = hooksSize then .nothing
  else match k.location name with
    | none => .panic
    | some ip => match hooks.store ⟨name, func, ip⟩ with
      | none => .panic
      | some hooks => .stored hooks

/-- The controller hooks functions one after another, each in three stores; the CPUs come through
the locations that are reported. -/
inductive Label (ι : Type*)
  | hook (name : String) (func : HookFunc)
  | publish
  | setFilter
  | enter (cpu : ι) (ip : UInt64)
  | look (cpu : ι)
  | leave (cpu : ι)

/-- The table, the location that is counted and not reported yet, the reported ones, the location
each CPU is dispatching, and what the dispatches have called. -/
structure State (ι : Type*) where
  hooks : Shared ι KstepHook hooksSize
  arming : Option UInt64
  filter : List UInt64
  dispatching : ι → Option UInt64
  calls : List (UInt64 × Option HookFunc)

def State.start {ι : Type*} : State ι := ⟨.start, none, [], fun _ => none, []⟩

variable {ι : Type*}

section Step

variable [DecidableEq ι]

def State.leave (s : State ι) (cpu : ι) (ip : UInt64) (called : Option HookFunc) : Option (State ι) :=
  (PublishedTable.step s.hooks (.finish cpu)).map fun hooks =>
    { s with
      hooks := hooks
      dispatching := Function.update s.dispatching cpu none
      calls := s.calls ++ [(ip, called)] }

def State.compare (s : State ι) (cpu : ι) (ip : UInt64) : Option (State ι) :=
  match (s.hooks.scan cpu).bind fun sc => sc.found.getLast?.join with
  | some h => if h.ip = ip then s.leave cpu ip (some h.func) else some s
  | none => some s

def step (k : Kernel) (s : State ι) : Label ι → Option (State ι)
  | .hook name func =>
      if s.hooks.storing ∨ s.arming.isSome then none
      else match hookStore k s.hooks.table name func with
        | .nothing => some s
        | .panic => none
        | .stored hooks => some { s with hooks := { s.hooks with table := hooks, storing := true } }
  | .publish =>
      (PublishedTable.step s.hooks .publish).map fun hooks =>
        { s with
          hooks := hooks
          arming := (s.hooks.table.at s.hooks.table.n).map KstepHook.ip }
  | .setFilter => match s.arming with
    | none => none
    | some ip => some { s with arming := none, filter := ip :: s.filter }
  | .enter cpu ip =>
      if ip ∈ s.filter ∧ s.dispatching cpu = none then
        (PublishedTable.step s.hooks (.load cpu)).map fun hooks =>
          { s with hooks := hooks, dispatching := Function.update s.dispatching cpu (some ip) }
      else none
  | .look cpu => match s.dispatching cpu with
    | none => none
    | some ip => match PublishedTable.step s.hooks (.read cpu) with
      | none => none
      | some hooks => State.compare { s with hooks := hooks } cpu ip
  | .leave cpu => match s.dispatching cpu, s.hooks.scan cpu with
    | some ip, some sc => if sc.found.length = sc.bound then s.leave cpu ip none else none
    | _, _ => none

end Step

/-- The hooks of a kernel: one for each name, at the location of that name, also with the one that is
being added. -/
structure Hooked (k : Kernel) (s : Shared ι KstepHook hooksSize) : Prop where
  inv : Inv s
  located : ∀ h ∈ s.table.log, k.location h.name = some h.ip
  nodup : (s.table.log.map KstepHook.name).Nodup
  fresh : s.storing = true → ∀ h, s.table.at s.table.n = some h →
    k.location h.name = some h.ip ∧ h.name ∉ s.table.log.map KstepHook.name

def Looking (log : List KstepHook) (sc : Scan KstepHook) (ip : UInt64) : Prop :=
  (∃ h ∈ log.take sc.bound, h.ip = ip) ∧ ∀ h ∈ log.take sc.found.length, h.ip ≠ ip

structure Traced (k : Kernel) (s : State ι) : Prop where
  hooked : Hooked k s.hooks
  reported : ∀ ip, ip ∈ s.filter ∨ s.arming = some ip → ∃ h ∈ s.hooks.table.log, h.ip = ip
  looking : ∀ cpu ip, s.dispatching cpu = some ip →
    ∃ sc, s.hooks.scan cpu = some sc ∧ Looking s.hooks.table.log sc ip
  called : ∀ c ∈ s.calls, ∃ h ∈ s.hooks.table.log, h.ip = c.1 ∧ c.2 = some h.func

variable {k : Kernel} {hooks hooks' : Hooks} {name : String} {func : HookFunc} {ip : UInt64}
  {s t : State ι} {u v : Shared ι KstepHook hooksSize} {sc : Scan KstepHook}
  {log log' : List KstepHook}

theorem traced_start : Traced k (State.start : State ι) where
  hooked := ⟨inv_start, fun _ h => absurd h List.not_mem_nil, List.nodup_nil, fun h => by cases h⟩
  reported ip h := by
    rcases h with h | h
    · exact absurd h List.not_mem_nil
    · cases h
  looking cpu ip h := by cases h
  called c h := absurd h List.not_mem_nil

theorem any_name_iff (hf : hooks.Filled) :
    ((List.range hooks.n).any fun i => decide ((hooks.at i).map KstepHook.name = some name)) = true ↔
      name ∈ hooks.log.map KstepHook.name := by
  rw [List.any_eq_true, List.mem_map]
  constructor
  · rintro ⟨i, hi, hat⟩
    rw [decide_eq_true_eq, at_eq hf (List.mem_range.mp hi)] at hat
    obtain ⟨hook, hhook, hname⟩ := Option.map_eq_some_iff.mp hat
    exact ⟨hook, List.mem_of_getElem? hhook, hname⟩
  · rintro ⟨hook, hhook, hname⟩
    obtain ⟨i, hi, hget⟩ := List.getElem_of_mem hhook
    have hn : i < hooks.n := by
      rw [← length_log hf]
      exact hi
    refine ⟨i, List.mem_range.mpr hn, ?_⟩
    rw [decide_eq_true_eq, at_eq hf hn, List.getElem?_eq_getElem hi, hget, Option.map_some, hname]

/-- The entry `kstep_hook` stores is new, and at its function's location. -/
theorem hookStore_eq_stored (hf : hooks.Filled) (h : hookStore k hooks name func = .stored hooks') :
    ∃ ip, k.location name = some ip ∧ name ∉ hooks.log.map KstepHook.name ∧
      hooks.store ⟨name, func, ip⟩ = some hooks' := by
  rw [hookStore] at h
  split_ifs at h with hany hfull
  split at h
  · cases h
  · rename_i ip hip
    split at h
    · cases h
    · rename_i stored hstore
      cases h
      exact ⟨ip, hip, fun hmem => hany ((any_name_iff hf).mpr hmem), hstore⟩

/-- With room in the table, a function that can be traced is stored unless it is there. -/
theorem hookStore_of_room (hf : hooks.Filled) (hroom : hooks.n < hooksSize)
    (hip : k.location name = some ip) :
    (name ∈ hooks.log.map KstepHook.name ∧ hookStore k hooks name func = .nothing) ∨
      (name ∉ hooks.log.map KstepHook.name ∧ ∃ hooks', hookStore k hooks name func = .stored hooks' ∧
        hooks.store ⟨name, func, ip⟩ = some hooks') := by
  rw [hookStore]
  split_ifs with hany hfull
  · exact Or.inl ⟨(any_name_iff hf).mp hany, rfl⟩
  · exact absurd hfull (Nat.ne_of_lt hroom)
  · refine Or.inr ⟨fun hmem => hany ((any_name_iff hf).mpr hmem), ?_⟩
    simp only [hip, Table.store, dif_pos hroom]
    exact ⟨_, rfl, rfl⟩

/-- A dispatch keeps its hook before it when the table grows. -/
theorem looking_of_extends (hlog : log <+: log') (hfound : sc.found.length ≤ sc.bound)
    (hbound : sc.bound ≤ log.length) (h : Looking log sc ip) : Looking log' sc ip := by
  obtain ⟨rest, rfl⟩ := hlog
  rw [Looking, List.take_append_of_le_length hbound,
    List.take_append_of_le_length (hfound.trans hbound)]
  exact h

section Step

variable [DecidableEq ι]

theorem hooked_step {a : PublishedTable.Label ι KstepHook}
    (h : PublishedTable.step u a = some v) (hu : Hooked k u)
    (hnew : ∀ hook, a = .store hook →
      k.location hook.name = some hook.ip ∧ hook.name ∉ u.table.log.map KstepHook.name) :
    Hooked k v := by
  have hinv := inv_step h hu.inv
  rcases step_table h with ⟨htable, hstoring⟩ | ⟨hook, rfl, -, hstore, -⟩ |
    ⟨rfl, hon, htable, hoff, -⟩
  · refine ⟨hinv, ?_, ?_, ?_⟩
    · rw [htable]
      exact hu.located
    · rw [htable]
      exact hu.nodup
    · rw [htable, hstoring]
      exact hu.fresh
  · obtain ⟨-, hn, -, hat⟩ := store_spec hstore
    have hlog := log_store hstore
    refine ⟨hinv, by rw [hlog]; exact hu.located, by rw [hlog]; exact hu.nodup, ?_⟩
    intro _ hook' hat'
    rw [hn, hat] at hat'
    cases hat'
    rw [hlog]
    exact hnew hook rfl
  · obtain ⟨hook, hn, hat⟩ := hu.inv.stored hon
    obtain ⟨hlocated, hname⟩ := hu.fresh hon hook hat
    have hlog : v.table.log = u.table.log ++ [hook] := by
      rw [htable]
      exact (publish_spec hu.inv.filled hn hat).2
    refine ⟨hinv, ?_, ?_, fun hfalse => by rw [hoff] at hfalse; cases hfalse⟩
    · rw [hlog]
      intro hook' hmem
      rcases List.mem_append.mp hmem with hmem | hmem
      · exact hu.located hook' hmem
      · rw [List.mem_singleton.mp hmem]
        exact hlocated
    · rw [hlog, List.map_append, List.nodup_append]
      refine ⟨hu.nodup, List.nodup_singleton _, ?_⟩
      rintro a ha b hb rfl
      rw [List.map_singleton, List.mem_singleton] at hb
      exact hname (hb ▸ ha)

/-- What is true of every dispatch that goes on stays true when only the table moves. -/
theorem traced_of_table {a : PublishedTable.Label ι KstepHook}
    (h : PublishedTable.step s.hooks a = some v) (hs : Traced k s) (hv : Hooked k v)
    (hscan : v.scan = s.hooks.scan) {arming : Option UInt64}
    (harming : ∀ ip, arming = some ip → ∃ hook ∈ v.table.log, hook.ip = ip) :
    Traced k { s with hooks := v, arming := arming } := by
  have hlog := log_extends h hs.hooked.inv
  refine ⟨hv, ?_, ?_, ?_⟩
  · rintro ip (hmem | hip)
    · obtain ⟨hook, hhook, rfl⟩ := hs.reported ip (Or.inl hmem)
      exact ⟨hook, hlog.subset hhook, rfl⟩
    · exact harming ip hip
  · intro cpu ip hip
    obtain ⟨sc, hsc, hlook⟩ := hs.looking cpu ip hip
    obtain ⟨hfound, hbound, -⟩ := hs.hooked.inv.scans cpu sc hsc
    rw [← length_log hs.hooked.inv.filled] at hbound
    exact ⟨sc, by rw [hscan]; exact hsc, looking_of_extends hlog hfound hbound hlook⟩
  · intro c hc
    obtain ⟨hook, hhook, hcall⟩ := hs.called c hc
    exact ⟨hook, hlog.subset hhook, hcall⟩

/-- What is true of the other dispatches stays true when one CPU's dispatch begins, goes on or ends. -/
theorem traced_of_scan {cpu : ι} {ip? : Option UInt64}
    {calls : List (UInt64 × Option HookFunc)} (hs : Traced k s) (hv : Hooked k v)
    (htable : v.table = s.hooks.table) (hother : ∀ cpu', cpu' ≠ cpu → v.scan cpu' = s.hooks.scan cpu')
    (hlook : ∀ ip, ip? = some ip →
      ∃ sc, v.scan cpu = some sc ∧ Looking s.hooks.table.log sc ip)
    (hcalls : ∀ c ∈ calls, c ∈ s.calls ∨
      ∃ h ∈ s.hooks.table.log, h.ip = c.1 ∧ c.2 = some h.func) :
    Traced k { s with
      hooks := v, dispatching := Function.update s.dispatching cpu ip?, calls := calls } := by
  refine ⟨hv, ?_, ?_, ?_⟩
  · rw [htable]
    exact hs.reported
  · intro cpu' ip hip
    change Function.update s.dispatching cpu ip? cpu' = some ip at hip
    rw [htable]
    by_cases hcpu : cpu' = cpu
    · subst hcpu
      rw [Function.update_self] at hip
      exact hlook ip hip
    · rw [Function.update_of_ne hcpu] at hip
      obtain ⟨sc, hsc, hlook'⟩ := hs.looking cpu' ip hip
      exact ⟨sc, (hother cpu' hcpu).trans hsc, hlook'⟩
  · intro c hc
    rw [htable]
    exact (hcalls c hc).elim (hs.called c) id

/-- The end of a dispatch that has called the hook of its location. -/
theorem traced_leave {cpu : ι} {hook : KstepHook}
    (h : State.leave { s with hooks := u } cpu hook.ip (some hook.func) = some t) (hs : Traced k s)
    (hu : Hooked k u) (htable : u.table = s.hooks.table)
    (hother : ∀ cpu', cpu' ≠ cpu → u.scan cpu' = s.hooks.scan cpu')
    (hhook : hook ∈ s.hooks.table.log) : Traced k t := by
  obtain ⟨v, hv, rfl⟩ := Option.map_eq_some_iff.mp h
  obtain ⟨htable', hscan, -⟩ := finish_spec hv
  refine traced_of_scan (s := s) hs (hooked_step hv hu fun _ h => by cases h) (htable'.trans htable) ?_
    (fun _ h => by cases h) ?_
  · intro cpu' hcpu
    rw [hscan, Function.update_of_ne hcpu]
    exact hother cpu' hcpu
  · intro c hc
    rcases List.mem_append.mp hc with hc | hc
    · exact Or.inl hc
    · rw [List.mem_singleton.mp hc]
      exact Or.inr ⟨hook, hhook, rfl, rfl⟩

/-- One turn of the dispatcher's loop. -/
theorem traced_look {cpu : ι} (h : step k s (.look cpu) = some t) (hs : Traced k s) : Traced k t := by
  simp only [step] at h
  split at h
  · cases h
  rename_i ip hip
  split at h
  · cases h
  rename_i v hread
  obtain ⟨sc, hsc, ⟨hook, hhook, hfor⟩, hnot⟩ := hs.looking cpu ip hip
  obtain ⟨htable, hscan, hlt⟩ := read_spec hread hsc
  obtain ⟨-, hbound, -⟩ := hs.hooked.inv.scans cpu sc hsc
  have hf := hs.hooked.inv.filled
  have hk : sc.found.length < s.hooks.table.log.length := by
    rw [length_log hf]
    omega
  -- the slot that is read holds the entry of the log behind those that were compared
  have hat : s.hooks.table.at sc.found.length = some s.hooks.table.log[sc.found.length] := by
    rw [at_eq hf (by omega), List.getElem?_eq_getElem hk]
  have hlast : ((v.scan cpu).bind fun sc => sc.found.getLast?.join) =
      some s.hooks.table.log[sc.found.length] := by
    rw [hscan, Function.update_self, Option.bind_some, Scan.next, List.getLast?_concat,
      Option.join_some, hat]
  have hother (cpu' : ι) (hcpu : cpu' ≠ cpu) : v.scan cpu' = s.hooks.scan cpu' := by
    rw [hscan, Function.update_of_ne hcpu]
  have hv := hooked_step hread hs.hooked fun _ hstore => by cases hstore
  simp only [State.compare, hlast] at h
  split_ifs at h with hsame
  · subst hsame
    exact traced_leave h hs hv htable hother (List.getElem_mem hk)
  · cases h
    have hupdate : s.dispatching = Function.update s.dispatching cpu (some ip) := by
      rw [← hip, Function.update_eq_self]
    rw [show ({ s with hooks := v } : State ι) = { s with
      hooks := v, dispatching := Function.update s.dispatching cpu (some ip), calls := s.calls } from
      congrArg (fun d => ({ s with hooks := v, dispatching := d } : State ι)) hupdate]
    refine traced_of_scan hs hv htable hother ?_ fun c hc => Or.inl hc
    rintro ip' ⟨⟩
    refine ⟨sc.next s.hooks.table, by rw [hscan, Function.update_self], ⟨hook, hhook, hfor⟩, ?_⟩
    rw [Scan.next, List.length_append, List.length_singleton, List.take_add_one,
      List.getElem?_eq_getElem hk]
    intro hook' hmem
    rcases List.mem_append.mp hmem with hmem | hmem
    · exact hnot hook' hmem
    · rw [Option.toList_some, List.mem_singleton] at hmem
      rw [hmem]
      exact hsame

theorem traced_step {e : Label ι} (h : step k s e = some t) (hs : Traced k s) : Traced k t := by
  cases e with
  | hook name func =>
      simp only [step] at h
      split_ifs at h with hbusy
      rw [not_or] at hbusy
      split at h
      · cases h
        exact hs
      · cases h
      · rename_i hooks hstored
        cases h
        obtain ⟨ip, hlocated, hfresh, hstore⟩ := hookStore_eq_stored hs.hooked.inv.filled hstored
        have hstep : PublishedTable.step s.hooks (.store ⟨name, func, ip⟩) =
            some { s.hooks with table := hooks, storing := true } := by
          simp only [PublishedTable.step, if_neg hbusy.1, hstore, Option.map_some]
        refine traced_of_table hstep hs (hooked_step hstep hs.hooked ?_) rfl ?_
        · rintro hook ⟨⟩
          exact ⟨hlocated, hfresh⟩
        · intro ip' hip
          rw [hip] at hbusy
          exact absurd rfl hbusy.2
  | publish =>
      simp only [step] at h
      obtain ⟨v, hv, rfl⟩ := Option.map_eq_some_iff.mp h
      obtain ⟨hon, htable, hscan⟩ := count_spec hv
      have hooked := hooked_step hv hs.hooked fun _ hstore => by cases hstore
      refine traced_of_table hv hs hooked hscan ?_
      obtain ⟨hook, hn, hat⟩ := hs.hooked.inv.stored hon
      intro ip hip
      rw [hat] at hip
      cases hip
      refine ⟨hook, ?_, rfl⟩
      rw [htable, (publish_spec hs.hooked.inv.filled hn hat).2]
      exact List.mem_append_right _ List.mem_cons_self
  | setFilter =>
      simp only [step] at h
      split at h
      · cases h
      · rename_i ip harming
        cases h
        refine ⟨hs.hooked, ?_, hs.looking, hs.called⟩
        rintro ip' (hmem | hnone)
        · rcases List.mem_cons.mp hmem with rfl | hmem
          · exact hs.reported _ (Or.inr harming)
          · exact hs.reported ip' (Or.inl hmem)
        · cases hnone
  | enter cpu ip =>
      simp only [step] at h
      split_ifs at h with hcan
      obtain ⟨v, hv, rfl⟩ := Option.map_eq_some_iff.mp h
      obtain ⟨htable, hscan, -⟩ := load_spec hv
      have hooked := hooked_step hv hs.hooked fun _ hstore => by cases hstore
      refine traced_of_scan hs hooked htable ?_ ?_ fun c hc => Or.inl hc
      · intro cpu' hcpu
        rw [hscan, Function.update_of_ne hcpu]
      · rintro ip' ⟨⟩
        refine ⟨_, by rw [hscan, Function.update_self], ?_, fun hook hmem => ?_⟩
        · rw [← length_log hs.hooked.inv.filled, List.take_length]
          exact hs.reported ip (Or.inl hcan.1)
        · exact absurd hmem List.not_mem_nil
  | look cpu => exact traced_look h hs
  | leave cpu =>
      -- a dispatch that has compared every entry it counts has met its own
      simp only [step] at h
      split at h
      · rename_i ip sc hip hsc
        split_ifs at h with hall
        obtain ⟨sc', hsc', ⟨hook, hhook, hfor⟩, hnot⟩ := hs.looking cpu ip hip
        rw [hsc] at hsc'
        cases hsc'
        rw [hall] at hnot
        exact absurd hfor (hnot hook hhook)
      · cases h

/-- A traced location has one hook, and every dispatch of it calls that hook's handler. -/
theorem dispatch_finds_hook (hk : ∀ name name' ip, k.location name = some ip →
      k.location name' = some ip → name = name')
    {l : List (Label ι)} (h : run (step k) State.start l = some s) :
    (s.hooks.table.log.map KstepHook.ip).Nodup ∧
      ∀ ip called, (ip, called) ∈ s.calls →
        ∃ hook ∈ s.hooks.table.log, hook.ip = ip ∧ called = some hook.func := by
  have hs : Traced k s := run_invariant (fun _ _ _ hstep => traced_step hstep) h traced_start
  refine ⟨?_, fun ip called hc => hs.called _ hc⟩
  have hnames := List.pairwise_map.mp hs.hooked.nodup
  refine List.pairwise_map.mpr (hnames.imp_of_mem ?_)
  intro hook hook' hmem hmem' hne heq
  exact hne (hk _ _ _ (hs.hooked.located hook hmem) (heq ▸ hs.hooked.located hook' hmem'))

def hookedTwice : List (Label ℕ) :=
  [.hook "set_task_cpu" .onSetTaskCpu, .publish, .setFilter, .enter 1 16,
    .hook "select_task_rq_fair" .onSelectTaskRq, .publish, .setFilter, .enter 0 32, .look 0, .look 0,
    .look 1]

def twoFunctions : Kernel where
  ksym name := name = "set_task_cpu" ∨ name = "select_task_rq_fair"
  location name :=
    if name = "set_task_cpu" then some 16 else if name = "select_task_rq_fair" then some 32 else none

theorem dispatch_finds_hook_twice :
    ((run (step twoFunctions) State.start hookedTwice).map State.calls =
      some [(32, some .onSelectTaskRq), (16, some .onSetTaskCpu)]) ∧
    ∀ s, run (step twoFunctions) State.start hookedTwice = some s →
      (s.hooks.table.log.map KstepHook.ip).Nodup ∧
        ∀ ip called, (ip, called) ∈ s.calls →
          ∃ hook ∈ s.hooks.table.log, hook.ip = ip ∧ called = some hook.func := by
  refine ⟨by decide, fun s h => dispatch_finds_hook ?_ h⟩
  intro name name' ip h h'
  simp only [twoFunctions] at h h'
  have hne : (some 16 : Option UInt64) ≠ some 32 := by decide
  split_ifs at h h' with hname hname' _ hname hname'
  · rw [hname, hname']
  · exact absurd (h.trans h'.symm) hne
  · exact absurd (h'.trans h.symm) hne
  · rw [hname, ‹name' = _›]

end Step

end KStep.Trace
