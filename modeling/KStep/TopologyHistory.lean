import KStep.TopologyNarrowing

/-!
# A spec after a history and right after boot

After `kstep_cpu_init` the kernel's table points at the module's masks, so the levels a spec does
not name are read back through what earlier specs left. This module compares a spec accepted after
an arbitrary history with the same spec applied right after boot. Errors, counts, capacities and
named levels agree; unnamed levels agree exactly when the history left them the machine's own.
-/

namespace KStep.Topology

open EarlyExit CString Blocks

variable {E : Env} {M : Machine} {k : ℕ} {t t' t₀ f : Topo} {spec : List Char} {level : Level}

def Unnamed (spec : List Char) (level : Level) : Prop :=
  ∀ entry ∈ specEntries spec, entryLevel entry ≠ some level

def Machine.own (M : Machine) (level : Level) : ℕ → Finset ℕ :=
  (ownMask M.levels level).getD fun _ => ∅

/-- Two states with the same test CPUs, the same masks at every level of the kernel's table, and
the same capacities of the test CPUs. -/
structure SameTopology (E : Env) (t f : Topo) : Prop where
  count : t.testNcpus = f.testNcpus
  table : t.table = f.table
  masks : ∀ tl ∈ t.table, ∀ c < E.numOnlineCpus, topoMask t.masks tl c = topoMask f.masks tl c
  capacity : ∀ c ∈ testCpus t.testNcpus, t.capacity c = f.capacity c

/-- At every level the spec does not name, the masks of the test CPUs `1..k` are the machine's own
as far as `1..k` goes. -/
def OwnUnnamed (M : Machine) (k : ℕ) (spec : List Char) (t : Topo) : Prop :=
  ∀ tl ∈ t.table, ∀ level, getTopoLevel tl.name = some level → Unnamed spec level →
    ∀ c ∈ testCpus k, topoMask t.masks tl c ∩ testCpus k = M.own level c ∩ testCpus k

/-- An accepted call, taken apart: the count it read, the masks it started its entries from, and
what it left. -/
theorem accepted_cases (ht : TableReady t.table) (h : kstepTopoSet E t spec = some (none, t'))
    (hk : topoCpus E spec = some k) :
    ∃ masks, topoInit E (testCpus k) t.table t.masks = some (t.table, masks) ∧
      (topoEntries E k spec masks).1 = none ∧
      t'.masks = (topoEntries E k spec masks).2.masks ∧ t'.testNcpus = k ∧
      CapsSettable E k (topoEntries E k spec masks).2.caps ∧
      ∀ c ∈ testCpus k, t'.capacity c = (topoEntries E k spec masks).2.caps c := by
  obtain ⟨masks, hinit, _⟩ := topoInit_ready E (testCpus k) ht t.masks
  rcases kstepTopoSet_cases h with ⟨hnone, _⟩ | ⟨k', table, masks', hk', hinit', herr, hend⟩
  · rw [hk] at hnone
    cases hnone
  · obtain rfl : k = k' := Option.some.inj (hk.symm.trans hk')
    rw [hinit] at hinit'
    cases hinit'
    rcases hend with ⟨hne, _⟩ | ⟨_, happly⟩
    · exact absurd rfl hne
    · obtain ⟨_, hmasks, hn, hcap⟩ := topoApply_some happly
      refine ⟨masks, hinit, herr.symm, hmasks, hn, topoApply_isSome_iff.mp ⟨t', happly⟩, ?_⟩
      intro c hc
      rw [hcap]
      exact if_pos hc

theorem accepted_topoCpus (h : kstepTopoSet E t spec = some (none, t')) :
    ∃ k, topoCpus E spec = some k := by
  rcases kstepTopoSet_cases h with ⟨_, herr, _⟩ | ⟨k, _, _, hk, _⟩
  · cases herr
  · exact ⟨k, hk⟩

theorem accepted_of_passes {masks : Level → ℕ → Finset ℕ} (hk : topoCpus E spec = some k)
    (hinit : topoInit E (testCpus k) t.table t.masks = some (t.table, masks))
    (herr : (topoEntries E k spec masks).1 = none)
    (hset : CapsSettable E k (topoEntries E k spec masks).2.caps) :
    ∃ f, kstepTopoSet E t spec = some (none, f) := by
  obtain ⟨f, hf⟩ :=
    topoApply_isSome_iff (t := draftTopo t k t.table (topoEntries E k spec masks).2).mpr hset
  rcases hd : topoEntries E k spec masks with ⟨err, d⟩
  rw [hd] at herr hf
  obtain rfl : err = none := herr
  exact ⟨f, by simp only [kstepTopoSet, hk, hinit, hd, hf, Option.map_some]⟩

/-- Whether a spec is accepted does not depend on the masks before it. -/
theorem accepted_fresh (ht : TableReady t.table) (h₀ : TableReady t₀.table)
    (h : kstepTopoSet E t spec = some (none, t')) :
    ∃ f, kstepTopoSet E t₀ spec = some (none, f) := by
  obtain ⟨k, hk⟩ := accepted_topoCpus h
  obtain ⟨masks, _, herr, _, _, hset, _⟩ := accepted_cases ht h hk
  obtain ⟨masks₀, hinit₀, _⟩ := topoInit_ready E (testCpus k) h₀ t₀.masks
  obtain ⟨hsame, hcaps⟩ := topoEntries_same E k spec masks masks₀
  rw [(hcaps herr).1] at hset
  exact accepted_of_passes hk hinit₀ (hsame.symm.trans herr) hset

/-- A level the spec does not name holds what was there before, cut to the test CPUs. -/
theorem accepted_unnamed (ht : TableReady t.table) (h : kstepTopoSet E t spec = some (none, t'))
    (hk : topoCpus E spec = some k) (hlevel : HasLevel t.table level) (hun : Unnamed spec level)
    {c : ℕ} (hc : c ∈ testCpus k) : t'.masks level c = t.masks level c ∩ testCpus k := by
  obtain ⟨masks, hinit, _, hmasks, _⟩ := accepted_cases ht h hk
  obtain ⟨masks', hinit', hhas, _⟩ := topoInit_ready E (testCpus k) ht t.masks
  rw [hinit'] at hinit
  cases hinit
  rw [hmasks, topoEntries_masks_ne masks hun,
    hhas level hlevel c (testCpus_subset (topoCpus_le hk) hc), restrict, if_pos hc]

/-- A level the spec names holds the same masks whatever was there before. -/
theorem accepted_named (ht : TableReady t.table) (h₀ : TableReady t₀.table)
    (h : kstepTopoSet E t spec = some (none, t')) (hf : kstepTopoSet E t₀ spec = some (none, f))
    (hk : topoCpus E spec = some k) (hnamed : ¬ Unnamed spec level) {c : ℕ}
    (hc : c ∈ testCpus k) : t'.masks level c = f.masks level c := by
  obtain ⟨masks, _, herr, hmasks, _⟩ := accepted_cases ht h hk
  obtain ⟨fmasks, _, _, hfmasks, _⟩ := accepted_cases h₀ hf hk
  simp only [Unnamed, not_forall, not_not] at hnamed
  obtain ⟨entry, hentry, hl⟩ := hnamed
  rw [hmasks, hfmasks]
  exact ((topoEntries_same E k spec masks fmasks).2 herr).2 level ⟨entry, hentry, hl⟩ c hc

/-- A CPU that is not a test CPU is alone. -/
theorem accepted_alone (ht : TableReady t.table) (h : kstepTopoSet E t spec = some (none, t'))
    (hk : topoCpus E spec = some k) (hlevel : HasLevel t.table level) {c : ℕ}
    (hc : c ∈ onlineCpus E) (hct : c ∉ testCpus k) : t'.masks level c = {c} := by
  obtain ⟨masks, hinit, _, hmasks, _⟩ := accepted_cases ht h hk
  rw [hmasks]
  exact (topoEntries_confined ht hlevel (topoCpus_le hk) spec hinit).alone c hc hct

theorem accepted_capacity (ht : TableReady t.table) (h₀ : TableReady t₀.table)
    (h : kstepTopoSet E t spec = some (none, t')) (hf : kstepTopoSet E t₀ spec = some (none, f))
    (hk : topoCpus E spec = some k) {c : ℕ} (hc : c ∈ testCpus k) :
    t'.capacity c = f.capacity c := by
  obtain ⟨masks, _, herr, _, _, _, hcap⟩ := accepted_cases ht h hk
  obtain ⟨fmasks, _, _, _, _, _, hfcap⟩ := accepted_cases h₀ hf hk
  rw [hcap c hc, hfcap c hc, ((topoEntries_same E k spec masks fmasks).2 herr).1]

/-- Right after boot a level the spec does not name holds the machine's own masks, cut to the test
CPUs. -/
theorem fresh_unnamed (hboot : kstepCpuInit E (M.boot E) = some t₀)
    (hf : kstepTopoSet E t₀ spec = some (none, f)) (hk : topoCpus E spec = some k)
    (hlevel : HasLevel t₀.table level) (hun : Unnamed spec level) {c : ℕ} (hc : c ∈ testCpus k) :
    f.masks level c = M.own level c ∩ testCpus k := by
  obtain ⟨hn₀, hown⟩ := kstepCpuInit_boot hboot
  obtain ⟨mask, hmask, hmasks⟩ := hown level hlevel
  have hwide : testCpus k ⊆ testCpus (E.numOnlineCpus - 1) :=
    Finset.Icc_subset_Icc le_rfl (topoCpus_le hk)
  have hc' : c ∈ onlineCpus E := testCpus_subset (topoCpus_le hk) hc
  rw [accepted_unnamed hn₀.ready hf hk hlevel hun hc, hmasks c hc', restrict, if_pos (hwide hc),
    Finset.inter_assoc, Finset.inter_eq_right.mpr hwide, Machine.own, hmask, Option.getD_some]

/-- An accepted spec means what it means right after boot exactly when, before the call, the masks
of the CPUs it makes test CPUs are still the machine's own at the levels it does not name. -/
theorem accepted_spec_same_as_fresh_iff (E : Env) (M : Machine) (t₀ t t' : Topo)
    (specs : List (List Char)) (spec : List Char)
    (hboot : kstepCpuInit E (M.boot E) = some t₀) (hrun : topoRun E t₀ specs = some t)
    (hset : kstepTopoSet E t spec = some (none, t')) :
    ∃ f k, kstepTopoSet E t₀ spec = some (none, f) ∧ topoCpus E spec = some k ∧
      (SameTopology E t' f ∧ OwnUnnamed M k spec t' ↔ OwnUnnamed M k spec t) := by
  have h₀ := (kstepCpuInit_boot hboot).1
  obtain ⟨hn, htable⟩ := topoRun_narrowed h₀ hrun
  have ht := hn.ready
  obtain ⟨f, hf⟩ := accepted_fresh ht h₀.ready hset
  obtain ⟨k, hk⟩ := accepted_topoCpus hset
  obtain ⟨_, _, _, _, hcount, _⟩ := accepted_cases ht hset hk
  obtain ⟨_, _, _, _, fcount, _⟩ := accepted_cases h₀.ready hf hk
  have htable' : t'.table = t.table := (kstepTopoSet_ready ht hset).1
  have ftable : f.table = t₀.table := (kstepTopoSet_ready h₀.ready hf).1
  have hbefore : ∀ tl ∈ t.table, ∀ level, getTopoLevel tl.name = some level → Unnamed spec level →
      ∀ c ∈ testCpus k, topoMask t'.masks tl c = topoMask t.masks tl c ∩ testCpus k := by
    intro tl hmem level hname hun c hc
    have hmask := ht.mask hmem hname
    rw [topoMask_kstep hmask, topoMask_kstep hmask]
    exact accepted_unnamed ht hset hk ⟨tl, hmem, hmask⟩ hun hc
  refine ⟨f, k, hf, hk, ?_, ?_⟩
  · rintro ⟨-, hown⟩ tl hmem level hname hun c hc
    have h := hown tl (htable' ▸ hmem) level hname hun c hc
    rwa [hbefore tl hmem level hname hun c hc, Finset.inter_assoc, Finset.inter_self] at h
  · intro hkept
    refine ⟨⟨hcount.trans fcount.symm, htable'.trans (htable.trans ftable.symm), ?_, ?_⟩, ?_⟩
    · intro tl hmem c hc
      rw [htable'] at hmem
      obtain ⟨level, hname, hmask⟩ := ht tl hmem
      have hlevel₀ : HasLevel t₀.table level := ⟨tl, htable ▸ hmem, hmask⟩
      by_cases hct : c ∈ testCpus k
      · by_cases hun : Unnamed spec level
        · rw [hbefore tl hmem level hname hun c hct, hkept tl hmem level hname hun c hct,
            topoMask_kstep hmask, fresh_unnamed hboot hf hk hlevel₀ hun hct]
        · rw [topoMask_kstep hmask, topoMask_kstep hmask]
          exact accepted_named ht h₀.ready hset hf hk hun hct
      · have hc' : c ∈ onlineCpus E := Finset.mem_range.mpr hc
        rw [topoMask_kstep hmask, topoMask_kstep hmask,
          accepted_alone ht hset hk ⟨tl, hmem, hmask⟩ hc' hct,
          accepted_alone h₀.ready hf hk hlevel₀ hc' hct]
    · intro c hc
      exact accepted_capacity ht h₀.ready hset hf hk (hcount ▸ hc)
    · intro tl hmem level hname hun c hc
      rw [htable'] at hmem
      rw [hbefore tl hmem level hname hun c hc, Finset.inter_assoc, Finset.inter_self]
      exact hkept tl hmem level hname hun c hc

theorem accepted_spec_same_as_fresh_four_cpus :
    ∃ t₀ t t', kstepCpuInit fourCpuEnv (fourCpuMachine.boot fourCpuEnv) = some t₀ ∧
      topoRun fourCpuEnv t₀ ["MC=1-2".toList] = some t ∧
      kstepTopoSet fourCpuEnv t "CPUS=2;MC=1-2".toList = some (none, t') ∧
      ∃ f k, kstepTopoSet fourCpuEnv t₀ "CPUS=2;MC=1-2".toList = some (none, f) ∧
        topoCpus fourCpuEnv "CPUS=2;MC=1-2".toList = some k ∧
        (SameTopology fourCpuEnv t' f ∧ OwnUnnamed fourCpuMachine k "CPUS=2;MC=1-2".toList t' ↔
          OwnUnnamed fourCpuMachine k "CPUS=2;MC=1-2".toList t) :=
  ⟨_, _, _, rfl, rfl, rfl, accepted_spec_same_as_fresh_iff fourCpuEnv fourCpuMachine _ _ _
    ["MC=1-2".toList] _ rfl rfl rfl⟩

/-- After `CPUS=1` the empty spec leaves every CPU but 1 alone: what the narrowing removed does not
come back. -/
theorem empty_spec_after_narrowing_differs :
    ∃ t₀ t t' f, kstepCpuInit fourCpuEnv (fourCpuMachine.boot fourCpuEnv) = some t₀ ∧
      topoRun fourCpuEnv t₀ ["CPUS=1".toList] = some t ∧
      kstepTopoSet fourCpuEnv t [] = some (none, t') ∧
      kstepTopoSet fourCpuEnv t₀ [] = some (none, f) ∧
      t'.masks .mc 2 = {2} ∧ f.masks .mc 2 = {1, 2, 3} ∧ ¬ SameTopology fourCpuEnv t' f := by
  refine ⟨_, _, _, _, rfl, rfl, rfl, rfl, by decide, by decide, fun h => ?_⟩
  have hmc := h.masks ⟨"MC".toList, .kstep .mc⟩ (by simp [draftTopo]) 2 (by decide)
  revert hmc
  decide

end KStep.Topology
