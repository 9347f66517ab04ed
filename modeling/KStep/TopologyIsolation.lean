import KStep.TopologyEntries

/-!
# The topology partitions the CPUs and isolates the controller

At every level of the kernel's table the masks partition the online CPUs, the test CPUs' masks stay
among the test CPUs, and CPU 0 and every spare CPU are alone. `topoInit` establishes this by
restricting masks that partition, and every entry of a spec keeps it, whichever group the spec is
rejected at.
-/

namespace KStep.Topology

open EarlyExit CString Blocks

variable {E : Env} {k : ℕ} {test : Finset ℕ}

def onlineCpus (E : Env) : Finset ℕ := Finset.range E.numOnlineCpus

structure Isolated (E : Env) (test : Finset ℕ) (m : ℕ → Finset ℕ) : Prop where
  confined : Confined (onlineCpus E) test m
  partitions : Partitions (onlineCpus E) m

theorem Isolated.congr {m m' : ℕ → Finset ℕ} (h : Isolated E test m) (ht : test ⊆ onlineCpus E)
    (hm : ∀ c ∈ onlineCpus E, m' c = m c) : Isolated E test m' where
  confined := {
    subset := fun c hc => by
      rw [hm c (ht hc)]
      exact h.confined.subset c hc
    alone := fun c hc hct => by
      rw [hm c hc]
      exact h.confined.alone c hc hct }
  partitions := h.partitions.congr hm

theorem restrict_isolated {m : ℕ → Finset ℕ} (h : Partitions (onlineCpus E) m)
    (test : Finset ℕ) : Isolated E test (restrict test m) :=
  ⟨restrict_confined _ _ _, restrict_partitions h test⟩

theorem testCpus_subset (hk : k ≤ E.numOnlineCpus - 1) : testCpus k ⊆ onlineCpus E := by
  intro c hc
  simp only [testCpus, Finset.mem_Icc] at hc
  simp only [onlineCpus, Finset.mem_range]
  omega

/-! ### Narrowing the table -/

theorem topoInitLevel_self {masks : Level → ℕ → Finset ℕ} {tl : TopologyLevel} {level : Level}
    {c : ℕ} (hc : c ∈ onlineCpus E) :
    topoInitLevel E test masks tl level level c = restrict test (topoMask masks tl) c := by
  rw [topoInitLevel, if_pos ⟨rfl, Finset.mem_range.mp hc⟩]

theorem topoInitLevel_ne {masks : Level → ℕ → Finset ℕ} {tl : TopologyLevel} {level l : Level}
    (hl : l ≠ level) : topoInitLevel E test masks tl level l = masks l := by
  funext c
  rw [topoInitLevel, if_neg fun h => hl h.1]

theorem topoInitLevel_isolated {masks : Level → ℕ → Finset ℕ} {tl : TopologyLevel} {level : Level}
    (ht : test ⊆ onlineCpus E) (h : Partitions (onlineCpus E) (topoMask masks tl)) :
    Isolated E test (topoInitLevel E test masks tl level level) :=
  (restrict_isolated h test).congr ht fun _ hc => topoInitLevel_self hc

/-- Narrowing one level leaves every other level of the table a partition. -/
theorem topoInitLevel_partitions {masks : Level → ℕ → Finset ℕ} {tl : TopologyLevel}
    {level : Level} (ht : test ⊆ onlineCpus E) (h : Partitions (onlineCpus E) (topoMask masks tl))
    {tl' : TopologyLevel} (h' : Partitions (onlineCpus E) (topoMask masks tl')) :
    Partitions (onlineCpus E) (topoMask (topoInitLevel E test masks tl level) tl') := by
  cases hm : tl'.mask with
  | machine mask =>
      rw [topoMask_machine hm] at h' ⊢
      exact h'
  | kstep l =>
      rw [topoMask_kstep hm] at h' ⊢
      rcases eq_or_ne l level with rfl | hl
      · exact (topoInitLevel_isolated ht h).partitions
      · rw [topoInitLevel_ne hl]
        exact h'

theorem topoInit_isolated {table table' : List TopologyLevel} {masks masks' : Level → ℕ → Finset ℕ}
    (ht : test ⊆ onlineCpus E)
    (hP : ∀ tl ∈ table, Partitions (onlineCpus E) (topoMask masks tl))
    (h : topoInit E test table masks = some (table', masks')) :
    (∀ tl ∈ table', Isolated E test (topoMask masks' tl)) ∧
      ∀ level, Isolated E test (masks level) → Isolated E test (masks' level) := by
  induction table generalizing table' masks with
  | nil =>
      simp only [topoInit, Option.some.injEq, Prod.mk.injEq] at h
      obtain ⟨rfl, rfl⟩ := h
      exact ⟨by simp, fun _ hl => hl⟩
  | cons tl table ih =>
      obtain ⟨level, rest, _, hrest, rfl⟩ := topoInit_cons h
      have hhead := hP tl List.mem_cons_self
      have htail : ∀ tl' ∈ table, Partitions (onlineCpus E)
          (topoMask (topoInitLevel E test masks tl level) tl') := fun tl' hmem =>
        topoInitLevel_partitions ht hhead (hP tl' (List.mem_cons_of_mem tl hmem))
      obtain ⟨hnew, hkeep⟩ := ih htail hrest
      refine ⟨?_, ?_⟩
      · rintro tl' (_ | ⟨_, hmem⟩)
        · exact hkeep level (topoInitLevel_isolated ht hhead)
        · exact hnew tl' hmem
      · intro l hl
        apply hkeep
        rcases eq_or_ne l level with rfl | hne
        · exact topoInitLevel_isolated ht hhead
        · rwa [topoInitLevel_ne hne]

/-- The table the kernel reads afterwards points at the module's masks, level by level. -/
theorem topoInit_table {table table' : List TopologyLevel} {masks masks' : Level → ℕ → Finset ℕ}
    (h : topoInit E test table masks = some (table', masks')) :
    ∀ tl ∈ table', ∃ level, getTopoLevel tl.name = some level ∧ tl.mask = .kstep level := by
  induction table generalizing table' masks with
  | nil =>
      cases h
      simp
  | cons tl table ih =>
      obtain ⟨level, rest, hlevel, hrest, rfl⟩ := topoInit_cons h
      rintro tl' (_ | ⟨_, hmem⟩)
      · exact ⟨level, hlevel, rfl⟩
      · exact ih hrest tl' hmem

/-- An entry keeps a level isolated: after the reset a test CPU no group has named yet is alone,
so a group merges CPUs that are alone. -/
theorem isolated_rule (hk : k ≤ E.numOnlineCpus - 1) :
    LevelRule k (Isolated E (testCpus k)) fun seen m =>
      Isolated E (testCpus k) m ∧ ∀ c ∈ testCpus k, c ∉ seen → m c = {c} where
  reset m hm := ⟨⟨hm.confined.singletons, hm.confined.singletons_partitions⟩, fun c hc _ =>
    hm.confined.singletons_eq (testCpus_subset hk hc)⟩
  write seen m g := by
    rintro ⟨hm, halone⟩ hsub hdis
    have hg : ∀ c ∈ g, m c = {c} := fun c hc =>
      halone c (hsub hc) (Finset.disjoint_left.mp hdis hc)
    refine ⟨⟨hm.confined.merge hsub,
      hm.partitions.merge (hsub.trans (testCpus_subset hk)) hg⟩, fun c hc hseen => ?_⟩
    rw [Finset.mem_union, not_or] at hseen
    rw [merge, if_neg hseen.2]
    exact halone c hc hseen.1
  stop _ _ h := h.1

/-! ### Whole calls and whole sessions -/

def Isolating (E : Env) (t : Topo) : Prop :=
  ∀ tl ∈ t.table, Isolated E (testCpus t.testNcpus) (topoMask t.masks tl)

theorem topoCpusEntry_le {n k : ℕ} {entry : List Char} (hn : n ≤ E.numOnlineCpus - 1)
    (h : topoCpusEntry E n entry = some k) : k ≤ E.numOnlineCpus - 1 := by
  simp only [topoCpusEntry] at h
  split_ifs at h
  · split at h
    · cases h
    · split_ifs at h with hrange
      cases h
      omega
  · cases h
    exact hn

theorem topoCpus_le {spec : List Char} (h : topoCpus E spec = some k) :
    k ≤ E.numOnlineCpus - 1 := by
  have hfold : ∀ (entries : List (List Char)) (n : ℕ), n ≤ E.numOnlineCpus - 1 →
      entries.foldlM (topoCpusEntry E) n = some k → k ≤ E.numOnlineCpus - 1 := by
    intro entries
    induction entries with
    | nil =>
        intro n hn he
        cases he
        exact hn
    | cons entry entries ih =>
        intro n hn he
        rw [List.foldlM_cons, Option.bind_eq_bind, Option.bind_eq_some_iff] at he
        obtain ⟨m, hm, hrest⟩ := he
        exact ih m (topoCpusEntry_le hn hm) hrest
  exact hfold _ _ le_rfl h

/-- The masks of every level are those of the draft, isolated from the narrowing on. -/
theorem topoEntries_isolated {t : Topo} {table : List TopologyLevel}
    {masks : Level → ℕ → Finset ℕ} (spec : List Char) (hk : k ≤ E.numOnlineCpus - 1)
    (hP : ∀ tl ∈ t.table, Partitions (onlineCpus E) (topoMask t.masks tl))
    (hinit : topoInit E (testCpus k) t.table t.masks = some (table, masks)) :
    Isolating E (draftTopo t k table (topoEntries E k spec masks).2) := by
  intro tl htl
  have hstart := (topoInit_isolated (testCpus_subset hk) hP hinit).1 tl htl
  obtain ⟨level, _, hmask⟩ := topoInit_table hinit tl htl
  rw [topoMask_kstep hmask] at hstart ⊢
  exact (isolated_rule hk).entries spec masks hstart

theorem kstepTopoSet_isolating {t t' : Topo} {spec : List Char} {err : Option String}
    (hP : ∀ tl ∈ t.table, Partitions (onlineCpus E) (topoMask t.masks tl))
    (hcpus : topoCpus E spec ≠ none) (h : kstepTopoSet E t spec = some (err, t')) :
    Isolating E t' := by
  rcases kstepTopoSet_cases h with ⟨hnone, _⟩ | ⟨k, table, masks, hk, hinit, _, hend⟩
  · exact absurd hnone hcpus
  · have hdraft := topoEntries_isolated spec (topoCpus_le hk) hP hinit
    rcases hend with ⟨_, rfl⟩ | ⟨_, happly⟩
    · exact hdraft
    · obtain ⟨htable, hmasks, hn, _⟩ := topoApply_some happly
      intro tl htl
      rw [hmasks, hn]
      exact hdraft tl (htable ▸ htl)

theorem topoRun_isolating {t t' : Topo} {specs : List (List Char)} (ht : Isolating E t)
    (h : topoRun E t specs = some t') : Isolating E t' := by
  induction specs generalizing t with
  | nil =>
      cases h
      exact ht
  | cons spec specs ih =>
      simp only [topoRun] at h
      split at h
      · cases h
      · rename_i err t₁ hset
        refine ih ?_ h
        by_cases hcpus : topoCpus E spec = none
        · rcases kstepTopoSet_cases hset with ⟨_, _, rfl⟩ | ⟨k, _, _, hk, _⟩
          · exact ht
          · rw [hcpus] at hk
            cases hk
        · exact kstepTopoSet_isolating (fun tl htl => (ht tl htl).partitions) hcpus hset

theorem topoCpus_nil : topoCpus E [] = some (E.numOnlineCpus - 1) := by
  simp [topoCpus, specEntries, strscpy, topoCpusEntry, strstarts]

theorem kstepCpuInit_isolating {M : Machine} {t : Topo}
    (hM : ∀ l ∈ M.levels, Partitions (onlineCpus E) l.2)
    (h : kstepCpuInit E (M.boot E) = some t) : Isolating E t := by
  simp only [kstepCpuInit] at h
  split_ifs at h
  obtain ⟨⟨err, t'⟩, hset, rfl⟩ := Option.map_eq_some_iff.mp h
  refine kstepTopoSet_isolating ?_ (by simp [topoCpus_nil]) hset
  intro tl htl
  simp only [Machine.boot, List.mem_map] at htl
  obtain ⟨l, hl, rfl⟩ := htl
  exact hM l hl

/-- The topology is a partition that isolates the controller and the spare CPUs, in every state
of the module. -/
theorem topology_isolates (E : Env) (M : Machine) (t : Topo)
    (hM : ∀ l ∈ M.levels, Partitions (onlineCpus E) l.2) (ht : Reachable E M t) :
    ∀ tl ∈ t.table,
      (∀ c < E.numOnlineCpus, c ∈ topoMask t.masks tl c) ∧
      (∀ c < E.numOnlineCpus, ∀ d < E.numOnlineCpus,
        topoMask t.masks tl c = topoMask t.masks tl d ∨
          Disjoint (topoMask t.masks tl c) (topoMask t.masks tl d)) ∧
      ∀ c < E.numOnlineCpus, c = 0 ∨ t.testNcpus < c →
        topoMask t.masks tl c = {c} ∧
          ∀ d < E.numOnlineCpus, d ≠ c → c ∉ topoMask t.masks tl d := by
  obtain ⟨t₀, specs, hinit, hrun⟩ := ht
  intro tl htl
  obtain ⟨hconf, hpart⟩ := topoRun_isolating (kstepCpuInit_isolating hM hinit) hrun tl htl
  have honline : ∀ {c}, c < E.numOnlineCpus → c ∈ onlineCpus E := Finset.mem_range.mpr
  refine ⟨fun c hc => hpart.mem_self c (honline hc), fun c hc d hd =>
    hpart.eq_or_disjoint c (honline hc) d (honline hd), ?_⟩
  intro c hc hout
  have hnot : c ∉ testCpus t.testNcpus := by
    simp only [testCpus, Finset.mem_Icc]
    omega
  exact ⟨hconf.alone c (honline hc) hnot, fun d hd hne =>
    hconf.not_mem_block hnot (honline hd) hne.symm⟩

theorem topology_isolates_four_cpus :
    ∃ t, Reachable fourCpuEnv fourCpuMachine t ∧ t.testNcpus = 2 ∧
      ∀ tl ∈ t.table,
        (∀ c < 4, c ∈ topoMask t.masks tl c) ∧
        (∀ c < 4, ∀ d < 4, topoMask t.masks tl c = topoMask t.masks tl d ∨
          Disjoint (topoMask t.masks tl c) (topoMask t.masks tl d)) ∧
        ∀ c < 4, c = 0 ∨ t.testNcpus < c →
          topoMask t.masks tl c = {c} ∧ ∀ d < 4, d ≠ c → c ∉ topoMask t.masks tl d := by
  have hM : ∀ l ∈ fourCpuMachine.levels, Partitions (onlineCpus fourCpuEnv) l.2 := by
    intro l hl
    simp only [fourCpuMachine, List.mem_cons, List.not_mem_nil, or_false] at hl
    rcases hl with rfl | rfl <;> exact ⟨by decide, by decide⟩
  exact ⟨_, ⟨_, ["CPUS=2;MC=1-2".toList], rfl, rfl⟩, rfl,
    topology_isolates fourCpuEnv fourCpuMachine _ hM ⟨_, ["CPUS=2;MC=1-2".toList], rfl, rfl⟩⟩

end KStep.Topology
