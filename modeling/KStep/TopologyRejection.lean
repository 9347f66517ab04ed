import KStep.TopologyHistory

/-!
# What a rejected spec leaves alone

A spec is interpreted in place, so a rejected one may already have set the test CPU count and
written masks. It has not reached the end of the call: the capacities, the sibling masks, the
scheduling domains and the slices, which is what the kernel reads, are as they were.
-/

namespace KStep.Topology

open EarlyExit CString Blocks

variable {E : Env} {M : Machine} {t t' : Topo} {spec : List Char}

theorem Reachable.narrowed (h : Reachable E M t) : Narrowed E t := by
  obtain ⟨t₀, specs, hboot, hrun⟩ := h
  exact (topoRun_narrowed (kstepCpuInit_boot hboot).1 hrun).1

theorem rejected_kernel_state {err : String} (h : kstepTopoSet E t spec = some (some err, t')) :
    t'.capacity = t.capacity ∧ t'.sibling = t.sibling ∧ t'.domains = t.domains ∧
      t'.sliceFactor = t.sliceFactor := by
  rcases kstepTopoSet_cases h with ⟨_, _, rfl⟩ | ⟨k, table, masks, _, _, _, ⟨_, rfl⟩ | ⟨herr, _⟩⟩
  · exact ⟨rfl, rfl, rfl, rfl⟩
  · exact ⟨rfl, rfl, rfl, rfl⟩
  · cases herr

/-- Narrowing to the CPU count in force changes no mask, so only the levels named are written. -/
theorem same_count_unnamed {err : Option String} (ht : Narrowed E t)
    (h : kstepTopoSet E t spec = some (err, t')) (hk : topoCpus E spec = some t.testNcpus)
    {level : Level} (hlevel : HasLevel t.table level) (hun : Unnamed spec level) {c : ℕ}
    (hc : c ∈ onlineCpus E) : t'.masks level c = t.masks level c := by
  obtain ⟨_, ⟨hnone, _⟩ | ⟨k, masks, hk', hinit, _, hmasks, _⟩⟩ := kstepTopoSet_ready ht.ready h
  · rw [hk] at hnone
    cases hnone
  · obtain rfl : t.testNcpus = k := Option.some.inj (hk.symm.trans hk')
    obtain ⟨masks', hinit', hhas, _⟩ := topoInit_ready E (testCpus t.testNcpus) ht.ready t.masks
    rw [hinit'] at hinit
    cases hinit
    rw [hmasks, topoEntries_masks_ne masks hun, hhas level hlevel c hc]
    exact (ht.confined level hlevel).restrict_eq hc

/-- A rejected spec changes nothing the kernel reads. One rejected for its CPU count changes
nothing at all, and one that asks for the count in force keeps the count and every level it does
not name. -/
theorem rejected_spec_keeps (E : Env) (M : Machine) (t t' : Topo) (spec : List Char) (err : String)
    (ht : Reachable E M t) (h : kstepTopoSet E t spec = some (some err, t')) :
    (t'.capacity = t.capacity ∧ t'.sibling = t.sibling ∧ t'.domains = t.domains ∧
      t'.sliceFactor = t.sliceFactor) ∧
    (topoCpus E spec = none → t' = t) ∧
    (topoCpus E spec = some t.testNcpus → t'.testNcpus = t.testNcpus ∧
      ∀ tl ∈ t.table, ∀ level, getTopoLevel tl.name = some level → Unnamed spec level →
        ∀ c < E.numOnlineCpus, topoMask t'.masks tl c = topoMask t.masks tl c) := by
  have hn := ht.narrowed
  obtain ⟨_, hcases⟩ := kstepTopoSet_ready hn.ready h
  refine ⟨rejected_kernel_state h, fun hnone => ?_, fun hk => ⟨?_, ?_⟩⟩
  · rcases hcases with ⟨_, heq⟩ | ⟨k, _, hk, _⟩
    · exact heq
    · rw [hnone] at hk
      cases hk
  · rcases hcases with ⟨hnone, _⟩ | ⟨k, _, hk', _, _, _, hcount⟩
    · rw [hk] at hnone
      cases hnone
    · exact hcount.trans (Option.some.inj (hk'.symm.trans hk))
  · intro tl hmem level hname hun c hc
    have hmask := hn.ready.mask hmem hname
    rw [topoMask_kstep hmask, topoMask_kstep hmask]
    exact same_count_unnamed hn h hk ⟨tl, hmem, hmask⟩ hun (Finset.mem_range.mpr hc)

theorem rejected_spec_keeps_four_cpus :
    ∃ t t', Reachable fourCpuEnv fourCpuMachine t ∧
      kstepTopoSet fourCpuEnv t "MC=1-2;X=1".toList =
        some (some "unknown key (a level, CAP or CPUS)", t') ∧
      (t'.capacity = t.capacity ∧ t'.sibling = t.sibling ∧ t'.domains = t.domains ∧
        t'.sliceFactor = t.sliceFactor) ∧
      (topoCpus fourCpuEnv "MC=1-2;X=1".toList = none → t' = t) ∧
      (topoCpus fourCpuEnv "MC=1-2;X=1".toList = some t.testNcpus → t'.testNcpus = t.testNcpus ∧
        ∀ tl ∈ t.table, ∀ level, getTopoLevel tl.name = some level →
          Unnamed "MC=1-2;X=1".toList level →
          ∀ c < fourCpuEnv.numOnlineCpus, topoMask t'.masks tl c = topoMask t.masks tl c) :=
  ⟨_, _, ⟨_, [], rfl, rfl⟩, rfl, rejected_spec_keeps fourCpuEnv fourCpuMachine _ _ _
    "unknown key (a level, CAP or CPUS)" ⟨_, [], rfl, rfl⟩ rfl⟩

/-- `CPUS=1;X=1` is refused for its unknown key after it has left one test CPU of three. -/
theorem rejected_spec_changes_count :
    ∃ t t', Reachable fourCpuEnv fourCpuMachine t ∧
      kstepTopoSet fourCpuEnv t "CPUS=1;X=1".toList =
        some (some "unknown key (a level, CAP or CPUS)", t') ∧
      t.testNcpus = 3 ∧ t'.testNcpus = 1 ∧ t.masks .mc 2 = {1, 2, 3} ∧ t'.masks .mc 2 = {2} :=
  ⟨_, _, ⟨_, [], rfl, rfl⟩, rfl, by decide, by decide, by decide, by decide⟩

end KStep.Topology
