import KStep.TopologyIsolation

/-!
# The masks every call starts from

`kstep_cpu_init` narrows the machine's own masks and points the kernel's table at the module's.
From then on a call keeps the table and restricts the masks the call before it left, so in every
state of the module the masks are confined to the test CPUs, whatever the machine's own were.
-/

namespace KStep.Topology

open EarlyExit CString Blocks

variable {E : Env} {M : Machine} {k : ℕ}

/-- The table as `topo_init` leaves it: each level reads the module's masks of its own name. -/
def TableReady (table : List TopologyLevel) : Prop :=
  ∀ tl ∈ table, ∃ level, getTopoLevel tl.name = some level ∧ tl.mask = .kstep level

def HasLevel (table : List TopologyLevel) (level : Level) : Prop :=
  ∃ tl ∈ table, tl.mask = .kstep level

theorem TableReady.mask {table : List TopologyLevel} (h : TableReady table) {tl : TopologyLevel}
    (hmem : tl ∈ table) {level : Level} (hname : getTopoLevel tl.name = some level) :
    tl.mask = .kstep level := by
  obtain ⟨l, hl, hmask⟩ := h tl hmem
  rw [hl, Option.some.injEq] at hname
  rw [hmask, hname]

/-- On a table that points at the module's masks, `topo_init` restricts them level by level and
leaves the table as it is. -/
theorem topoInit_ready (E : Env) (test : Finset ℕ) {table : List TopologyLevel}
    (h : TableReady table) (masks : Level → ℕ → Finset ℕ) :
    ∃ masks', topoInit E test table masks = some (table, masks') ∧
      (∀ level, HasLevel table level → ∀ c ∈ onlineCpus E,
        masks' level c = restrict test (masks level) c) ∧
      ∀ level, ¬ HasLevel table level → masks' level = masks level := by
  induction table generalizing masks with
  | nil => exact ⟨masks, rfl, by simp [HasLevel], fun _ _ => rfl⟩
  | cons tl table ih =>
      obtain ⟨l, hname, hmask⟩ := h tl List.mem_cons_self
      have hself : ∀ c ∈ onlineCpus E,
          topoInitLevel E test masks tl l l c = restrict test (masks l) c := fun c hc => by
        rw [topoInitLevel_self hc, topoMask_kstep hmask]
      obtain ⟨masks', hinit, hhas, hnot⟩ := ih (fun tl' hmem => h tl' (List.mem_cons_of_mem _ hmem))
        (topoInitLevel E test masks tl l)
      refine ⟨masks', ?_, ?_, ?_⟩
      · simp only [topoInit, hname, hinit]
        rw [← hmask]
      · intro level hlevel c hc
        by_cases hin : HasLevel table level
        · rw [hhas level hin c hc]
          rcases eq_or_ne level l with rfl | hne
          · exact restrict_idem (hself c hc)
          · rw [topoInitLevel_ne hne]
        · obtain ⟨tl', _ | ⟨_, hmem⟩, htl'⟩ := hlevel
          · obtain rfl : l = level := by simpa only [hmask, MaskFn.kstep.injEq] using htl'
            rw [hnot l hin]
            exact hself c hc
          · exact absurd ⟨tl', hmem, htl'⟩ hin
      · intro level hlevel
        have hin : ¬ HasLevel table level := by
          rintro ⟨tl', hmem, htl'⟩
          exact hlevel ⟨tl', List.mem_cons_of_mem _ hmem, htl'⟩
        have hne : level ≠ l := fun heq => hlevel ⟨tl, List.mem_cons_self, heq ▸ hmask⟩
        rw [hnot level hin, topoInitLevel_ne hne]

theorem confined_rule : LevelRule k (Confined (onlineCpus E) (testCpus k))
    fun _ m => Confined (onlineCpus E) (testCpus k) m where
  reset _ hm := hm.singletons
  write _ _ _ hm hsub _ := hm.merge hsub
  stop _ _ hm := hm

/-- What every state of the module keeps, whatever the machine's masks were. -/
structure Narrowed (E : Env) (t : Topo) : Prop where
  ready : TableReady t.table
  confined : ∀ level, HasLevel t.table level →
    Confined (onlineCpus E) (testCpus t.testNcpus) (t.masks level)

/-- A call on a ready table keeps the table; the masks after it are those of the spec's entries
over the restricted masks. -/
theorem kstepTopoSet_ready {t t' : Topo} {spec : List Char} {err : Option String}
    (hready : TableReady t.table) (h : kstepTopoSet E t spec = some (err, t')) :
    t'.table = t.table ∧ ((topoCpus E spec = none ∧ t' = t) ∨
      ∃ k masks, topoCpus E spec = some k ∧
        topoInit E (testCpus k) t.table t.masks = some (t.table, masks) ∧
        err = (topoEntries E k spec masks).1 ∧
        t'.masks = (topoEntries E k spec masks).2.masks ∧ t'.testNcpus = k) := by
  rcases kstepTopoSet_cases h with ⟨hnone, _, rfl⟩ | ⟨k, table, masks, hk, hinit, herr, hend⟩
  · exact ⟨rfl, Or.inl ⟨hnone, rfl⟩⟩
  · obtain ⟨masks', hinit', _⟩ := topoInit_ready E (testCpus k) hready t.masks
    rw [hinit'] at hinit
    cases hinit
    rcases hend with ⟨_, rfl⟩ | ⟨_, happly⟩
    · exact ⟨rfl, Or.inr ⟨k, masks, hk, hinit', herr, rfl, rfl⟩⟩
    · obtain ⟨htable, hmasks, hn, _⟩ := topoApply_some happly
      exact ⟨htable, Or.inr ⟨k, masks, hk, hinit', herr, hmasks, hn⟩⟩

theorem Confined.of_restrict {A T : Finset ℕ} {m m' : ℕ → Finset ℕ} (hT : T ⊆ A)
    (h : ∀ c ∈ A, m' c = restrict T m c) : Confined A T m' where
  subset c hc := by
    rw [h c (hT hc)]
    exact (restrict_confined A T m).subset c hc
  alone c hc hcT := by
    rw [h c hc]
    exact (restrict_confined A T m).alone c hc hcT

theorem topoEntries_confined {t : Topo} {masks : Level → ℕ → Finset ℕ} {level : Level}
    (hready : TableReady t.table) (hlevel : HasLevel t.table level)
    (hk : k ≤ E.numOnlineCpus - 1) (spec : List Char)
    (hinit : topoInit E (testCpus k) t.table t.masks = some (t.table, masks)) :
    Confined (onlineCpus E) (testCpus k) ((topoEntries E k spec masks).2.masks level) := by
  obtain ⟨masks', hinit', hhas, _⟩ := topoInit_ready E (testCpus k) hready t.masks
  rw [hinit'] at hinit
  cases hinit
  exact confined_rule.entries spec masks
    (Confined.of_restrict (testCpus_subset hk) (hhas level hlevel))

theorem kstepTopoSet_narrowed {t t' : Topo} {spec : List Char} {err : Option String}
    (ht : Narrowed E t) (h : kstepTopoSet E t spec = some (err, t')) : Narrowed E t' := by
  obtain ⟨htable, ⟨_, rfl⟩ | ⟨k, masks, hk, hinit, _, hmasks, hn⟩⟩ := kstepTopoSet_ready ht.ready h
  · exact ht
  · refine ⟨htable ▸ ht.ready, fun level hlevel => ?_⟩
    rw [hmasks, hn]
    exact topoEntries_confined ht.ready (htable ▸ hlevel) (topoCpus_le hk) spec hinit

theorem topoRun_narrowed {t t' : Topo} {specs : List (List Char)} (ht : Narrowed E t)
    (h : topoRun E t specs = some t') : Narrowed E t' ∧ t'.table = t.table := by
  induction specs generalizing t with
  | nil =>
      cases h
      exact ⟨ht, rfl⟩
  | cons spec specs ih =>
      simp only [topoRun] at h
      split at h
      · cases h
      · rename_i err t₁ hset
        obtain ⟨hend, htable⟩ := ih (kstepTopoSet_narrowed ht hset) h
        exact ⟨hend, htable.trans (kstepTopoSet_ready ht.ready hset).1⟩

/-! ### Boot -/

/-- The machine's own masks at a level: those of the last entry of the kernel's table for it. -/
def ownMask : List (List Char × (ℕ → Finset ℕ)) → Level → Option (ℕ → Finset ℕ)
  | [], _ => none
  | l :: levels, level => match ownMask levels level with
    | some mask => some mask
    | none => if getTopoLevel l.1 = some level then some l.2 else none

theorem ownMask_of_name {levels : List (List Char × (ℕ → Finset ℕ))} {level : Level}
    (h : ∃ l ∈ levels, getTopoLevel l.1 = some level) :
    ∃ mask, ownMask levels level = some mask := by
  induction levels with
  | nil => simp at h
  | cons l levels ih =>
      rw [ownMask]
      cases hown : ownMask levels level with
      | some mask => exact ⟨mask, rfl⟩
      | none =>
          obtain ⟨l', _ | ⟨_, hmem⟩, hname⟩ := h
          · exact ⟨l.2, by simp only [hname, if_true]⟩
          · obtain ⟨mask, hmask⟩ := ih ⟨l', hmem, hname⟩
            rw [hown] at hmask
            cases hmask

theorem topoInit_names {test : Finset ℕ} {table table' : List TopologyLevel}
    {masks masks' : Level → ℕ → Finset ℕ}
    (h : topoInit E test table masks = some (table', masks')) :
    table'.map TopologyLevel.name = table.map TopologyLevel.name := by
  induction table generalizing table' masks with
  | nil =>
      cases h
      rfl
  | cons tl table ih =>
      obtain ⟨level, rest, _, hrest, rfl⟩ := topoInit_cons h
      simp only [List.map_cons, ih hrest]

theorem topoInit_boot {test : Finset ℕ} {levels : List (List Char × (ℕ → Finset ℕ))}
    {table : List TopologyLevel} {masks masks' : Level → ℕ → Finset ℕ}
    (h : topoInit E test (levels.map fun l => ⟨l.1, .machine l.2⟩) masks = some (table, masks'))
    (level : Level) {c : ℕ} (hc : c ∈ onlineCpus E) :
    masks' level c = match ownMask levels level with
      | some mask => restrict test mask c
      | none => masks level c := by
  induction levels generalizing table masks with
  | nil =>
      cases h
      rfl
  | cons l levels ih =>
      obtain ⟨l₀, rest, hname, hrest, rfl⟩ := topoInit_cons h
      rw [ih hrest, ownMask]
      cases hown : ownMask levels level with
      | some mask => rfl
      | none =>
          rcases eq_or_ne level l₀ with rfl | hne
          · simp only [topoInitLevel_self hc, hname, if_true]
            rw [topoMask_machine rfl]
          · have hname' : getTopoLevel l.1 ≠ some level := fun heq =>
              hne (Option.some.inj (heq.symm.trans hname))
            simp only [topoInitLevel_ne hne, if_neg hname']

theorem topoEntries_nil (masks : Level → ℕ → Finset ℕ) :
    topoEntries E k [] masks = (none, ⟨masks, fun _ => schedCapacityScale⟩) := by
  simp [topoEntries, specEntries, strscpy, topoSetEntry, stopFold]

/-- `kstep_cpu_init` narrows the machine's own masks to the CPUs but the controller's. -/
theorem kstepCpuInit_boot {t : Topo} (h : kstepCpuInit E (M.boot E) = some t) :
    Narrowed E t ∧ ∀ level, HasLevel t.table level → ∃ mask, ownMask M.levels level = some mask ∧
      ∀ c ∈ onlineCpus E, t.masks level c = restrict (testCpus (E.numOnlineCpus - 1)) mask c := by
  simp only [kstepCpuInit] at h
  split_ifs at h
  obtain ⟨⟨err, t'⟩, hset, rfl⟩ := Option.map_eq_some_iff.mp h
  rcases kstepTopoSet_cases hset with ⟨hnone, _⟩ | ⟨k, table, masks, hk, hinit, herr, hend⟩
  · simp [topoCpus_nil] at hnone
  · rw [topoEntries_nil] at herr hend
    obtain rfl : E.numOnlineCpus - 1 = k := by simpa [topoCpus_nil] using hk
    rcases hend with ⟨hne, _⟩ | ⟨_, happly⟩
    · exact absurd herr hne
    · obtain ⟨htable, hmasks, hn, _⟩ := topoApply_some happly
      have hready : TableReady t'.table := by
        rw [htable]
        exact topoInit_table hinit
      have hown : ∀ level, HasLevel t'.table level → ∃ mask, ownMask M.levels level = some mask ∧
          ∀ c ∈ onlineCpus E,
            t'.masks level c = restrict (testCpus (E.numOnlineCpus - 1)) mask c := by
        rintro level ⟨tl, hmem, hkstep⟩
        obtain ⟨l, hname, hmask⟩ := hready tl hmem
        obtain rfl : l = level := by simpa only [hmask, MaskFn.kstep.injEq] using hkstep
        have hlevels : tl.name ∈ M.levels.map Prod.fst := by
          have htable' : t'.table = table := htable
          have hin : tl.name ∈ table.map TopologyLevel.name :=
            List.mem_map_of_mem (htable' ▸ hmem)
          rw [topoInit_names hinit] at hin
          simpa [Machine.boot] using hin
        obtain ⟨bl, hbl, hbname⟩ := List.mem_map.mp hlevels
        obtain ⟨mask, hown⟩ := ownMask_of_name ⟨bl, hbl, hbname.symm ▸ hname⟩
        refine ⟨mask, hown, fun c hc => ?_⟩
        have hboot := topoInit_boot hinit l hc
        rw [hown] at hboot
        rw [hmasks]
        exact hboot
      refine ⟨⟨hready, fun level hlevel => ?_⟩, hown⟩
      obtain ⟨mask, _, hmask⟩ := hown level hlevel
      rw [hn]
      exact Confined.of_restrict (testCpus_subset le_rfl) hmask

end KStep.Topology
