import KStep.Trace
import Mathlib.Data.List.Perm.Subperm

/-!
# The rules of a session

`check <name>` enables a rule, and enabling is registering for the events the rule watches, which
also arms the kernel functions behind them. Whatever a session enables, in whichever order and however
often, every event calls its watchers once each in the order they came, and the functions that are
traced are those somebody watches.
-/

namespace KStep.Checks

open PublishedTable Events Trace

inductive Event
  | selectTaskRq
  | balanceSelected
  | taskMigrate
  | tickBegin
  | tickEnd
  | softirqBegin
  | softirqEnd
  | settle
  | freeze
  deriving DecidableEq, Repr

/-- The callbacks of the cli's own reporting and of the rules. -/
inductive Callback
  | outputBalance
  | reportMigrate
  | syncWakeupOnSelect
  | syncWakeupOnSettle
  | vruntimeOnSettle
  | peltOnTickEnd
  | frozenOnFreeze
  | balanceOnBalance
  | workConserveOnTickEnd
  | utilDecayOnTickEnd
  deriving DecidableEq, Repr

structure Registry where
  event : Event → KstepEvent Callback
  hooks : Hooks
  filter : List UInt64

def Registry.empty : Registry := ⟨fun _ => .empty, .empty, []⟩

/-- `kstep_hook`; `none` is its panic. -/
def kstepHook (k : Kernel) (reg : Registry) (hook : String × HookFunc) : Option Registry :=
  match hookStore k reg.hooks hook.1 hook.2 with
  | .nothing => some reg
  | .panic => none
  | .stored hooks => some { reg with
      hooks := hooks.publish
      filter := ((hooks.at hooks.n).map KstepHook.ip).toList ++ reg.filter }

/-- A registration: the kernel functions behind the event are traced when the callback is new. -/
def register (k : Kernel) (ev : Event) (hooks : List (String × HookFunc)) (reg : Registry)
    (fn : Callback) : Option Registry :=
  let added := kstepEventAdd (reg.event ev) fn
  let reg := { reg with event := Function.update reg.event ev added.1 }
  if added.2 then hooks.foldlM (kstepHook k) reg else some reg

def sym (k : Kernel) (name old : String) : String := if k.ksym name then name else old

def selectHooks : List (String × HookFunc) := [("select_task_rq_fair", .onSelectTaskRq)]

def balanceHooks (k : Kernel) : List (String × HookFunc) :=
  [(sym k "sched_balance_rq" "load_balance", .onSchedBalanceEnter),
    (sym k "sched_balance_find_src_group" "find_busiest_group", .onSchedBalanceSelected)]

def migrateHooks : List (String × HookFunc) := [("set_task_cpu", .onSetTaskCpu)]

section Members

variable (k : Kernel)

def kstepOnSelectTaskRq := register k .selectTaskRq selectHooks
def kstepOnBalanceSelected := register k .balanceSelected (balanceHooks k)
def kstepOnTaskMigrate := register k .taskMigrate migrateHooks
def kstepOnTickBegin := register k .tickBegin []
def kstepOnTickEnd := register k .tickEnd []
def kstepOnSoftirqBegin := register k .softirqBegin []
def kstepOnSoftirqEnd := register k .softirqEnd []
def kstepOnSettle := register k .settle []
def kstepOnFreeze := register k .freeze []

def kstepTraceInit : Option Registry :=
  kstepHook k .empty ("init_tg_cfs_entry", .onSchedGroupAlloc)

def setup (reg : Registry) : Option Registry := do
  let reg ← kstepOnBalanceSelected k reg .outputBalance
  kstepOnTaskMigrate k reg .reportMigrate

def kstepCheckSyncWakeupEnable (reg : Registry) : Option Registry := do
  let reg ← kstepOnSelectTaskRq k reg .syncWakeupOnSelect
  kstepOnSettle k reg .syncWakeupOnSettle

def kstepCheckVruntimeEnable (reg : Registry) := kstepOnSettle k reg .vruntimeOnSettle
def kstepCheckPeltEnable (reg : Registry) := kstepOnTickEnd k reg .peltOnTickEnd
def kstepCheckFrozenEnable (reg : Registry) := kstepOnFreeze k reg .frozenOnFreeze
def kstepCheckBalanceEnable (reg : Registry) := kstepOnBalanceSelected k reg .balanceOnBalance
def kstepCheckWorkConserveEnable (reg : Registry) := kstepOnTickEnd k reg .workConserveOnTickEnd
def kstepCheckUtilDecayEnable (reg : Registry) := kstepOnTickEnd k reg .utilDecayOnTickEnd

def checks : List (String × (Registry → Option Registry)) :=
  [("sync_wakeup", kstepCheckSyncWakeupEnable k), ("vruntime", kstepCheckVruntimeEnable k),
    ("pelt", kstepCheckPeltEnable k), ("frozen", kstepCheckFrozenEnable k),
    ("balance", kstepCheckBalanceEnable k), ("work_conserve", kstepCheckWorkConserveEnable k),
    ("util_decay", kstepCheckUtilDecayEnable k)]

/-- `kstep_check_enable`: the registry, and 0 or `-ENOENT`. -/
def kstepCheckEnable (reg : Registry) (name : String) : Option (Registry × ℤ) :=
  match (checks k).find? fun check => name == check.1 with
  | some check => (check.2 reg).map fun reg => (reg, 0)
  | none => some (reg, -2)

def session (names : List String) : Option (Registry × List ℤ) := do
  let reg ← kstepTraceInit k
  let reg ← setup k reg
  names.foldlM (fun acc name => (kstepCheckEnable k acc.1 name).map fun answer =>
    (answer.1, acc.2 ++ [answer.2])) (reg, [])

end Members

def rules : List (String × List (Event × Callback)) :=
  [("sync_wakeup", [(.selectTaskRq, .syncWakeupOnSelect), (.settle, .syncWakeupOnSettle)]),
    ("vruntime", [(.settle, .vruntimeOnSettle)]), ("pelt", [(.tickEnd, .peltOnTickEnd)]),
    ("frozen", [(.freeze, .frozenOnFreeze)]), ("balance", [(.balanceSelected, .balanceOnBalance)]),
    ("work_conserve", [(.tickEnd, .workConserveOnTickEnd)]),
    ("util_decay", [(.tickEnd, .utilDecayOnTickEnd)])]

def watches (name : String) : Option (List (Event × Callback)) :=
  (rules.find? fun rule => name == rule.1).map Prod.snd

def requests (names : List String) : List (Event × Callback) :=
  [(.balanceSelected, .outputBalance), (.taskMigrate, .reportMigrate)] ++
    names.flatMap fun name => (watches name).getD []

def watchers (ev : Event) (reqs : List (Event × Callback)) : List Callback :=
  (reqs.filterMap fun r => if r.1 = ev then some r.2 else none).eraseDups

def behind (k : Kernel) : Event → List String
  | .selectTaskRq => selectHooks.map Prod.fst
  | .balanceSelected => (balanceHooks k).map Prod.fst
  | .taskMigrate => migrateHooks.map Prod.fst
  | _ => []

def traced (k : Kernel) (reqs : List (Event × Callback)) : List String :=
  ("init_tg_cfs_entry" :: reqs.flatMap fun r => behind k r.1).eraseDups

def functions (k : Kernel) : List String :=
  ["init_tg_cfs_entry", "select_task_rq_fair", sym k "sched_balance_rq" "load_balance",
    sym k "sched_balance_find_src_group" "find_busiest_group", "set_task_cpu"]

def Traceable (k : Kernel) : Prop := ∀ name ∈ functions k, (k.location name).isSome

def home : Callback → Event
  | .syncWakeupOnSelect => .selectTaskRq
  | .outputBalance | .balanceOnBalance => .balanceSelected
  | .reportMigrate => .taskMigrate
  | .peltOnTickEnd | .workConserveOnTickEnd | .utilDecayOnTickEnd => .tickEnd
  | .syncWakeupOnSettle | .vruntimeOnSettle => .settle
  | .frozenOnFreeze => .freeze

/-- The registry of those who asked, in order. -/
structure Serves (k : Kernel) (reg : Registry) (reqs : List (Event × Callback)) : Prop where
  filled : ∀ ev, (reg.event ev).Filled
  watchers : ∀ ev, (reg.event ev).log = watchers ev reqs
  home : ∀ r ∈ reqs, r.1 = home r.2
  hooksFilled : reg.hooks.Filled
  traced : reg.hooks.log.map KstepHook.name = traced k reqs
  filter : reg.filter.reverse = reg.hooks.log.map KstepHook.ip

section EraseDups

variable {α : Type*} [DecidableEq α]

theorem eraseDups_concat (l : List α) (a : α) :
    (l ++ [a]).eraseDups = if a ∈ l then l.eraseDups else l.eraseDups ++ [a] := by
  rw [List.eraseDups_append]
  split_ifs with h
  · simp [List.removeAll, h]
  · simp [List.removeAll, h, List.eraseDups_cons]

theorem nodup_eraseDups (l : List α) : l.eraseDups.Nodup := by
  induction l using List.reverseRecOn with
  | nil => exact List.nodup_nil
  | append_singleton l a ih =>
      rw [eraseDups_concat]
      split_ifs with h
      · exact ih
      · refine ih.append (List.nodup_singleton a) ?_
        rw [List.disjoint_singleton, List.mem_eraseDups]
        exact h

/-- Values from a short list leave room. -/
theorem length_eraseDups_le {l l' : List α} (h : ∀ a ∈ l, a ∈ l') : l.eraseDups.length ≤ l'.length :=
  (List.Nodup.subperm (nodup_eraseDups l) fun a ha => h a (List.mem_eraseDups.mp ha)).length_le

/-- What is there already adds nothing. -/
theorem eraseDups_append_of_subset {l l' : List α} (h : ∀ a ∈ l', a ∈ l) :
    (l ++ l').eraseDups = l.eraseDups := by
  rw [List.eraseDups_append, List.removeAll, List.filter_eq_nil_iff.mpr, List.eraseDups_nil,
    List.append_nil]
  intro a ha
  simpa using h a ha

end EraseDups

variable {k : Kernel} {reg reg' : Registry} {reqs : List (Event × Callback)} {ev : Event}
  {fn : Callback} {hook : String × HookFunc} {hooks : List (String × HookFunc)} {l : List String}

/-- Hooking a function that can be traced adds it once, behind the others. -/
theorem kstepHook_spec (hk : Traceable k) (hf : reg.hooks.Filled)
    (hnames : reg.hooks.log.map KstepHook.name = l.eraseDups) (hl : ∀ name ∈ l, name ∈ functions k)
    (hfilter : reg.filter.reverse = reg.hooks.log.map KstepHook.ip) (hname : hook.1 ∈ functions k) :
    ∃ reg', kstepHook k reg hook = some reg' ∧ reg'.event = reg.event ∧ reg'.hooks.Filled ∧
      reg'.hooks.log.map KstepHook.name = (l ++ [hook.1]).eraseDups ∧
      reg'.filter.reverse = reg'.hooks.log.map KstepHook.ip := by
  obtain ⟨ip, hip⟩ := Option.isSome_iff_exists.mp (hk hook.1 hname)
  have hroom : reg.hooks.n < hooksSize := by
    have hle := length_eraseDups_le hl
    rw [← hnames, List.length_map, length_log hf] at hle
    exact Nat.lt_of_le_of_lt hle (by change 5 < 8; omega)
  have hmem : hook.1 ∈ reg.hooks.log.map KstepHook.name ↔ hook.1 ∈ l := by
    rw [hnames, List.mem_eraseDups]
  rw [eraseDups_concat, kstepHook]
  rcases hookStore_of_room hf hroom hip with ⟨hold, hstore⟩ | ⟨hnew, hooks, hstore, hooks_eq⟩
  · rw [hstore, if_pos (hmem.mp hold)]
    exact ⟨reg, rfl, rfl, hf, hnames, hfilter⟩
  · obtain ⟨-, hn, -, hat⟩ := store_spec hooks_eq
    rw [← hn] at hat hroom
    obtain ⟨hfilled, hlog⟩ := publish_spec (filled_store hf hooks_eq) hroom hat
    rw [log_store hooks_eq] at hlog
    rw [hstore, if_neg (fun h => hnew (hmem.mpr h))]
    refine ⟨_, rfl, rfl, hfilled, ?_, ?_⟩
    · change hooks.publish.log.map KstepHook.name = _
      rw [hlog, List.map_append, hnames]
      rfl
    · change (((hooks.at hooks.n).map KstepHook.ip).toList ++ reg.filter).reverse =
        hooks.publish.log.map KstepHook.ip
      rw [hlog, hat, List.map_append, List.reverse_append, hfilter]
      rfl

/-- The hooks of one event. -/
theorem kstepHooks_spec (hk : Traceable k) (hf : reg.hooks.Filled)
    (hnames : reg.hooks.log.map KstepHook.name = l.eraseDups) (hl : ∀ name ∈ l, name ∈ functions k)
    (hfilter : reg.filter.reverse = reg.hooks.log.map KstepHook.ip)
    (hhooks : ∀ hook ∈ hooks, hook.1 ∈ functions k) :
    ∃ reg', hooks.foldlM (kstepHook k) reg = some reg' ∧ reg'.event = reg.event ∧
      reg'.hooks.Filled ∧
      reg'.hooks.log.map KstepHook.name = (l ++ hooks.map Prod.fst).eraseDups ∧
      reg'.filter.reverse = reg'.hooks.log.map KstepHook.ip := by
  induction hooks generalizing reg l with
  | nil => exact ⟨reg, rfl, rfl, hf, by rw [List.map_nil, List.append_nil]; exact hnames, hfilter⟩
  | cons hook hooks ih =>
      obtain ⟨u, hu, hevent, huf, hunames, hufilter⟩ :=
        kstepHook_spec hk hf hnames hl hfilter (hhooks hook List.mem_cons_self)
      obtain ⟨v, hv, hvevent, hvf, hvnames, hvfilter⟩ := ih huf hunames (by
        intro name hname
        rcases List.mem_append.mp hname with hname | hname
        · exact hl name hname
        · rw [List.mem_singleton.mp hname]
          exact hhooks hook List.mem_cons_self) hufilter
        fun hook' hhook => hhooks hook' (List.mem_cons_of_mem _ hhook)
      refine ⟨v, ?_, hvevent.trans hevent, hvf, ?_, hvfilter⟩
      · rw [List.foldlM_cons, hu]
        exact hv
      · rw [hvnames, List.map_cons, List.append_assoc]
        rfl

theorem watchers_concat (r : Event × Callback) :
    watchers ev (reqs ++ [r]) =
      if r.1 = ev then (if r.2 ∈ watchers ev reqs then watchers ev reqs else watchers ev reqs ++ [r.2])
      else watchers ev reqs := by
  have hmem (fn : Callback) : fn ∈ watchers ev reqs ↔
      fn ∈ reqs.filterMap fun r => if r.1 = ev then some r.2 else none := List.mem_eraseDups
  simp only [hmem]
  rw [watchers, List.filterMap_append]
  by_cases hev : r.1 = ev
  · have hone : [r].filterMap (fun r => if r.1 = ev then some r.2 else none) = [r.2] := by simp [hev]
    rw [hone, eraseDups_concat, if_pos hev]
    rfl
  · have hnone : [r].filterMap (fun r => if r.1 = ev then some r.2 else none) = [] := by simp [hev]
    rw [hnone, List.append_nil, if_neg hev]
    rfl

theorem mem_watchers : fn ∈ watchers ev reqs ↔ (ev, fn) ∈ reqs := by
  rw [watchers, List.mem_eraseDups, List.mem_filterMap]
  constructor
  · rintro ⟨⟨ev', fn'⟩, hr, h⟩
    split_ifs at h with hev
    cases h
    cases hev
    exact hr
  · intro h
    exact ⟨(ev, fn), h, if_pos rfl⟩

theorem behind_subset (k : Kernel) (ev : Event) : ∀ name ∈ behind k ev, name ∈ functions k := by
  cases ev <;> simp [behind, functions, selectHooks, balanceHooks, migrateHooks]

/-- No event is watched by more than three. -/
theorem length_watchers_lt (h : ∀ r ∈ reqs, r.1 = home r.2) :
    (watchers ev reqs).length < kstepEventSubs := by
  have hsub : ∀ fn ∈ reqs.filterMap (fun r => if r.1 = ev then some r.2 else none),
      fn ∈ ([.outputBalance, .reportMigrate, .syncWakeupOnSelect, .syncWakeupOnSettle,
        .vruntimeOnSettle, .peltOnTickEnd, .frozenOnFreeze, .balanceOnBalance,
        .workConserveOnTickEnd, .utilDecayOnTickEnd] : List Callback).filter
          fun fn => decide (home fn = ev) := by
    intro fn hfn
    have hmem : (ev, fn) ∈ reqs := mem_watchers.mp (List.mem_eraseDups.mpr hfn)
    rw [List.mem_filter, decide_eq_true_eq]
    exact ⟨by cases fn <;> decide, (h _ hmem).symm⟩
  refine Nat.lt_of_le_of_lt (length_eraseDups_le hsub) ?_
  cases ev <;> decide

theorem traced_concat (r : Event × Callback) :
    traced k (reqs ++ [r]) =
      (("init_tg_cfs_entry" :: reqs.flatMap fun r => behind k r.1) ++ behind k r.1).eraseDups := by
  rw [traced, List.flatMap_append, List.flatMap_singleton, List.cons_append]

/-- One registration serves one more request. -/
theorem serves_register (hk : Traceable k) (h : Serves k reg reqs) (hhome : home fn = ev)
    (hhooks : hooks.map Prod.fst = behind k ev) :
    ∃ reg', register k ev hooks reg fn = some reg' ∧ Serves k reg' (reqs ++ [(ev, fn)]) := by
  obtain ⟨hfilled, hlog, hnew⟩ := @kstepEventAdd_spec _ _ _ fn (h.filled ev)
  have hroom : (reg.event ev).n ≠ kstepEventSubs := by
    rw [← length_log (h.filled ev), h.watchers ev]
    exact Nat.ne_of_lt (length_watchers_lt h.home)
  simp only [hroom, or_false, h.watchers ev] at hlog hnew
  have hevents (ev' : Event) :
      (Function.update reg.event ev (kstepEventAdd (reg.event ev) fn).1 ev').Filled ∧
      (Function.update reg.event ev (kstepEventAdd (reg.event ev) fn).1 ev').log =
        watchers ev' (reqs ++ [(ev, fn)]) := by
    rw [watchers_concat]
    by_cases hev : ev' = ev
    · subst hev
      rw [Function.update_self, if_pos rfl]
      exact ⟨hfilled, hlog⟩
    · rw [Function.update_of_ne hev, if_neg (Ne.symm hev)]
      exact ⟨h.filled ev', h.watchers ev'⟩
  have hhomes : ∀ r ∈ reqs ++ [(ev, fn)], r.1 = home r.2 := by
    intro r hr
    rcases List.mem_append.mp hr with hr | hr
    · exact h.home r hr
    · rw [List.mem_singleton.mp hr]
      exact hhome.symm
  have hbehind : ∀ name ∈ "init_tg_cfs_entry" :: reqs.flatMap fun r => behind k r.1,
      name ∈ functions k := by
    intro name hname
    rcases List.mem_cons.mp hname with rfl | hname
    · exact List.mem_cons_self
    · obtain ⟨r, -, hr⟩ := List.mem_flatMap.mp hname
      exact behind_subset k r.1 name hr
  rw [register]
  by_cases hold : fn ∈ watchers ev reqs
  · rw [if_neg (by rw [hnew, not_not]; exact hold)]
    refine ⟨_, rfl, fun ev' => (hevents ev').1, fun ev' => (hevents ev').2, hhomes, h.hooksFilled, ?_,
      h.filter⟩
    rw [traced_concat, eraseDups_append_of_subset]
    · exact h.traced
    · intro name hname
      exact List.mem_cons_of_mem _ (List.mem_flatMap.mpr ⟨_, mem_watchers.mp hold, hname⟩)
  · rw [if_pos (hnew.mpr hold)]
    have hsub : ∀ hook ∈ hooks, hook.1 ∈ functions k := by
      intro hook hhook
      refine behind_subset k ev hook.1 ?_
      rw [← hhooks]
      exact List.mem_map_of_mem hhook
    let added : Registry :=
      { reg with event := Function.update reg.event ev (kstepEventAdd (reg.event ev) fn).1 }
    obtain ⟨reg', hreg', hevent, hf, hnames, hfilter⟩ :=
      @kstepHooks_spec k added hooks _ hk h.hooksFilled h.traced hbehind h.filter hsub
    refine ⟨reg', hreg', ?_, ?_, hhomes, hf, ?_, hfilter⟩
    · rw [hevent]
      exact fun ev' => (hevents ev').1
    · rw [hevent]
      exact fun ev' => (hevents ev').2
    · rw [hnames, hhooks, traced_concat]

theorem serves_traceInit (hk : Traceable k) : ∃ reg, kstepTraceInit k = some reg ∧ Serves k reg [] := by
  obtain ⟨reg, hreg, hevent, hf, hnames, hfilter⟩ :=
    @kstepHook_spec k .empty ("init_tg_cfs_entry", .onSchedGroupAlloc) [] hk filled_empty rfl
      (fun _ h => absurd h List.not_mem_nil) rfl List.mem_cons_self
  refine ⟨reg, hreg, ?_, ?_, fun r hr => absurd hr List.not_mem_nil, hf, hnames, hfilter⟩
  · rw [hevent]
    exact fun _ => filled_empty
  · rw [hevent]
    exact fun _ => rfl

theorem serves_setup (hk : Traceable k) (h : Serves k reg []) :
    ∃ reg', setup k reg = some reg' ∧ Serves k reg' (requests []) := by
  obtain ⟨u, hu, hserves⟩ := @serves_register k reg [] .balanceSelected .outputBalance
    (balanceHooks k) hk h rfl rfl
  obtain ⟨v, hv, hserves'⟩ := @serves_register k u _ .taskMigrate .reportMigrate migrateHooks hk
    hserves rfl rfl
  refine ⟨v, ?_, hserves'⟩
  rw [setup, kstepOnBalanceSelected, hu]
  exact hv

def Enables (k : Kernel) (check : String × (Registry → Option Registry))
    (rule : String × List (Event × Callback)) : Prop :=
  check.1 = rule.1 ∧ ∀ reg reqs, Serves k reg reqs →
    ∃ reg', check.2 reg = some reg' ∧ Serves k reg' (reqs ++ rule.2)

theorem enables_one (hk : Traceable k) (name : String) (hhome : home fn = ev)
    (hhooks : hooks.map Prod.fst = behind k ev) :
    Enables k (name, fun reg => register k ev hooks reg fn) (name, [(ev, fn)]) :=
  ⟨rfl, fun _ _ h => serves_register hk h hhome hhooks⟩

theorem enables_syncWakeup (hk : Traceable k) :
    Enables k ("sync_wakeup", kstepCheckSyncWakeupEnable k)
      ("sync_wakeup", [(.selectTaskRq, .syncWakeupOnSelect), (.settle, .syncWakeupOnSettle)]) := by
  refine ⟨rfl, fun reg reqs h => ?_⟩
  obtain ⟨u, hu, hserves⟩ := @serves_register k reg reqs .selectTaskRq .syncWakeupOnSelect
    selectHooks hk h rfl rfl
  obtain ⟨v, hv, hserves'⟩ := @serves_register k u _ .settle .syncWakeupOnSettle [] hk hserves rfl rfl
  refine ⟨v, ?_, ?_⟩
  · change kstepCheckSyncWakeupEnable k reg = some v
    rw [kstepCheckSyncWakeupEnable, kstepOnSelectTaskRq, hu]
    exact hv
  · rw [List.append_assoc] at hserves'
    exact hserves'

theorem checks_enable (hk : Traceable k) : List.Forall₂ (Enables k) (checks k) rules := by
  refine .cons (enables_syncWakeup hk) ?_
  refine .cons (enables_one hk _ rfl rfl) (.cons (enables_one hk _ rfl rfl) ?_)
  refine .cons (enables_one hk _ rfl rfl) (.cons (enables_one hk _ rfl rfl) ?_)
  exact .cons (enables_one hk _ rfl rfl) (.cons (enables_one hk _ rfl rfl) .nil)

theorem find_enables {table : List (String × (Registry → Option Registry))}
    {rules : List (String × List (Event × Callback))} (h : List.Forall₂ (Enables k) table rules)
    (name : String) :
    ((table.find? fun check => name == check.1) = none ∧
      (rules.find? fun rule => name == rule.1) = none) ∨
    ∃ check rule, (table.find? fun check => name == check.1) = some check ∧
      (rules.find? fun rule => name == rule.1) = some rule ∧ Enables k check rule := by
  induction h with
  | nil => exact Or.inl ⟨rfl, rfl⟩
  | @cons check rule table rules hone hrest ih =>
      by_cases hname : name = check.1
      · refine Or.inr ⟨check, rule, List.find?_cons_of_pos ?_, List.find?_cons_of_pos ?_, hone⟩
        · rw [beq_iff_eq]
          exact hname
        · rw [beq_iff_eq, ← hone.1]
          exact hname
      · rw [List.find?_cons_of_neg, List.find?_cons_of_neg]
        · exact ih
        · rw [beq_iff_eq, ← hone.1]
          exact hname
        · rw [beq_iff_eq]
          exact hname

/-- `check` serves the requests of the rule it enables. -/
theorem serves_enable (hk : Traceable k) (h : Serves k reg reqs) (name : String) :
    ∃ reg', kstepCheckEnable k reg name =
        some (reg', if (watches name).isSome then 0 else -2) ∧
      Serves k reg' (reqs ++ (watches name).getD []) := by
  rw [kstepCheckEnable, watches]
  rcases find_enables (checks_enable hk) name with ⟨hcheck, hrule⟩ | ⟨check, rule, hcheck, hrule, hone⟩
  · rw [hcheck, hrule]
    exact ⟨reg, rfl, by rw [Option.map_none, Option.getD_none, List.append_nil]; exact h⟩
  · obtain ⟨reg', hreg', hserves⟩ := hone.2 reg reqs h
    rw [hcheck, hrule]
    refine ⟨reg', ?_, hserves⟩
    simp only [hreg', Option.map_some, Option.isSome_some, if_true]

theorem serves_enables (hk : Traceable k) (h : Serves k reg reqs) (answers : List ℤ)
    (names : List String) :
    ∃ reg', names.foldlM (fun acc name => (kstepCheckEnable k acc.1 name).map fun answer =>
          (answer.1, acc.2 ++ [answer.2])) (reg, answers) =
        some (reg', answers ++ names.map fun name => if (watches name).isSome then 0 else -2) ∧
      Serves k reg' (reqs ++ names.flatMap fun name => (watches name).getD []) := by
  induction names generalizing reg reqs answers with
  | nil => exact ⟨reg, by rw [List.map_nil, List.append_nil]; rfl, by
      rw [List.flatMap_nil, List.append_nil]; exact h⟩
  | cons name names ih =>
      obtain ⟨u, hu, hserves⟩ := serves_enable hk h name
      obtain ⟨v, hv, hserves'⟩ := ih hserves
        (answers ++ [if (watches name).isSome then 0 else -2])
      refine ⟨v, ?_, ?_⟩
      · rw [List.foldlM_cons, hu, List.map_cons]
        rw [List.append_assoc] at hv
        exact hv
      · rw [List.flatMap_cons, ← List.append_assoc]
        exact hserves'

/-- A session never panics over its checks: every event has the callbacks that were asked for, once
each in the order of asking, ftrace reports the functions behind the events that are watched and the
one behind new groups, and `check` refuses the names that are no rule's. -/
theorem session_serves (hk : Traceable k) (names : List String) :
    ∃ reg, session k names =
        some (reg, names.map fun name => if (watches name).isSome then 0 else -2) ∧
      (∀ ev, (reg.event ev).log = watchers ev (requests names)) ∧
      reg.hooks.log.map KstepHook.name = traced k (requests names) ∧
      reg.filter.reverse = reg.hooks.log.map KstepHook.ip := by
  obtain ⟨u, hu, hinit⟩ := serves_traceInit hk
  obtain ⟨v, hv, hsetup⟩ := serves_setup hk hinit
  obtain ⟨reg, hreg, h⟩ := serves_enables hk hsetup [] names
  refine ⟨reg, ?_, h.watchers, h.traced, h.filter⟩
  simp only [session, hu, hv, Option.bind_eq_bind, Option.bind_some]
  exact hreg

def fiveSites : Kernel where
  ksym _ := true
  location name := (["init_tg_cfs_entry", "select_task_rq_fair", "sched_balance_rq",
    "sched_balance_find_src_group", "set_task_cpu"].findIdx? (· == name)).map fun i =>
      UInt64.ofNat (16 * (i + 1))

theorem session_serves_pelt_twice :
    ∃ reg, session fiveSites ["pelt", "latency", "util_decay", "pelt"] = some (reg, [0, -2, 0, 0]) ∧
      (reg.event .tickEnd).log = [.peltOnTickEnd, .utilDecayOnTickEnd] ∧
      reg.hooks.log.map KstepHook.name =
        ["init_tg_cfs_entry", "sched_balance_rq", "sched_balance_find_src_group", "set_task_cpu"] ∧
      reg.hooks.log.map KstepHook.ip = [16, 48, 64, 80] := by
  have htraceable : Traceable fiveSites := by
    unfold Traceable
    decide
  obtain ⟨reg, hreg, hevents, hhooks, hfilter⟩ :=
    session_serves htraceable ["pelt", "latency", "util_decay", "pelt"]
  have hips : (session fiveSites ["pelt", "latency", "util_decay", "pelt"]).map
      (fun answer => answer.1.filter) = some [80, 64, 48, 16] := by decide
  rw [hreg, Option.map_some, Option.some.injEq] at hips
  rw [hips] at hfilter
  exact ⟨reg, hreg, hevents .tickEnd, hhooks, hfilter.symm⟩

end KStep.Checks
