import KStep.TopologyWrites

/-!
# What a topology spec means

Applied first after boot, a spec is accepted when it is well formed and the kernel can set the
capacities it asks for. It then makes `1..K` the test CPUs, writes the levels it names and keeps the
machine's own masks at the others, sets the capacities, and does so in whatever order entries with
different keys come.
-/

namespace KStep.Topology

open EarlyExit CString Blocks

structure Means (E : Env) (M : Machine) (spec : List Char) (t : Topo) : Prop where
  count : t.testNcpus = specCount E spec
  table : ∀ tl ∈ t.table, ∃ level, getTopoLevel tl.name = some level ∧
    topoMask t.masks tl = t.masks level
  named : ∀ level value, (valuesFor (.level level) spec).getLast? = some value →
    ∀ c ∈ testCpus t.testNcpus, LevelMask E t.testNcpus value c (t.masks level c)
  unnamed : ∀ tl ∈ t.table, ∀ level, getTopoLevel tl.name = some level →
    valuesFor (.level level) spec = [] →
      ∀ c ∈ testCpus t.testNcpus, t.masks level c = M.own level c ∩ testCpus t.testNcpus
  alone : ∀ tl ∈ t.table, ∀ c < E.numOnlineCpus, c ∉ testCpus t.testNcpus →
    topoMask t.masks tl c = {c}
  capacity : ∀ c ∈ testCpus t.testNcpus,
    LastScale E t.testNcpus (capTexts spec) c schedCapacityScale (t.capacity c)

def CapacityFits (E : Env) (spec : List Char) : Prop :=
  E.capSettable = true ∨ ∀ c ∈ testCpus (specCount E spec),
    LastScale E (specCount E spec) (capTexts spec) c schedCapacityScale schedCapacityScale

variable {E : Env} {M : Machine} {k : ℕ} {key : Key} {level : Level} {t t₀ : Topo}
  {spec spec' entry value : List Char}

/-! ### The two passes accept the well-formed specs -/

theorem groups_iff (hplain : key = .cap → ∀ text ∈ value.splitOn '|', ∀ list val,
      text = list ++ ':' :: val → E.cpulistParse list ≠ none → ':' ∉ list) :
    (∃ groups, Groups E k key value groups) ↔ CodeGroups E k key value := by
  constructor
  · rintro ⟨groups, hgroups, hdis⟩
    have hread : List.Forall₂ (fun text g => readGroup E k key text = some g) (value.splitOn '|')
        groups := by
      have hboth := List.forall₂_and_left _ _ |>.mpr
        ⟨fun text htext => (fun hcap => hplain hcap text htext), hgroups⟩
      exact hboth.imp fun text g h => h.2.readGroup h.1
    obtain rfl := readGroups_eq hread
    exact ⟨hread, hdis⟩
  · rintro ⟨hread, hdis⟩
    exact ⟨_, hread.imp fun _ _ => keyGroup_of_readGroup, hdis⟩

theorem wellFormed_iff (hplain : PlainCaps E spec) :
    WellFormed E spec ↔ (∀ value ∈ valuesFor .cpus spec, CpusValue E value) ∧
      ∀ entry ∈ spec.splitOn ';', entry ≠ [] → ∃ key value, valueFor key entry = some value ∧
        Accepted E (specCount E spec) key value := by
  have hgroups {entry value : List Char} {key : Key} (hentry : entry ∈ spec.splitOn ';')
      (hvalue : valueFor key entry = some value) :
      (∃ groups, Groups E (specCount E spec) key value groups) ↔
        CodeGroups E (specCount E spec) key value :=
    groups_iff fun hcap => hplain value (List.mem_filterMap.mpr ⟨entry, hentry, hcap ▸ hvalue⟩)
  constructor
  · intro h
    refine ⟨fun value hmem => ?_, fun entry hmem hne => ?_⟩
    · obtain ⟨entry, hentry, hvalue⟩ := List.mem_filterMap.mp hmem
      have hne : entry ≠ [] := by
        rintro rfl
        cases hvalue
      obtain ⟨key, value', hvalue', -, hok⟩ := h entry hentry hne
      obtain ⟨rfl, rfl⟩ := valueFor_unique hvalue' hvalue
      rwa [ValueOk, if_pos rfl] at hok
    · obtain ⟨key, value, hvalue, hvalue_ne, hok⟩ := h entry hmem hne
      refine ⟨key, value, hvalue, hvalue_ne, ?_⟩
      by_cases hcpus : key = .cpus
      · exact Or.inl hcpus
      · rw [ValueOk, if_neg hcpus, hgroups hmem hvalue] at hok
        exact Or.inr hok
  · rintro ⟨hcpus, hentries⟩ entry hmem hne
    obtain ⟨key, value, hvalue, hvalue_ne, hok⟩ := hentries entry hmem hne
    refine ⟨key, value, hvalue, hvalue_ne, ?_⟩
    by_cases hkey : key = .cpus
    · subst hkey
      rw [ValueOk, if_pos rfl]
      exact hcpus value (List.mem_filterMap.mpr ⟨entry, hmem, hvalue⟩)
    · rw [ValueOk, if_neg hkey, hgroups hmem hvalue]
      exact hok.resolve_left hkey

theorem topoEntries_none_iff (hlen : spec.length < cpuSpecLen) {masks : Level → ℕ → Finset ℕ} :
    (topoEntries E k spec masks).1 = none ↔ ∀ entry ∈ spec.splitOn ';', entry ≠ [] →
      ∃ key value, valueFor key entry = some value ∧ Accepted E k key value := by
  rw [topoEntries, specEntries_eq hlen, topoSetEntries_none_iff]

/-- What the second pass leaves when it accepts. -/
theorem topoEntries_writes (hlen : spec.length < cpuSpecLen) {masks : Level → ℕ → Finset ℕ}
    (h : (topoEntries E k spec masks).1 = none) :
    (∀ level, (topoEntries E k spec masks).2.masks level =
      (valuesFor (.level level) spec).foldl (fun m value => levelWrite E k level value m)
        (masks level)) ∧
    (topoEntries E k spec masks).2.caps = (valuesFor .cap spec).foldl
      (fun caps value => capWrite E k value caps) fun _ => schedCapacityScale := by
  rw [topoEntries, specEntries_eq hlen] at h ⊢
  exact topoSetEntries_writes (Prod.ext h rfl)

theorem topoEntries_scale (hlen : spec.length < cpuSpecLen) (hplain : PlainCaps E spec)
    {masks : Level → ℕ → Finset ℕ} (h : (topoEntries E k spec masks).1 = none) {c scale : ℕ} :
    LastScale E k (capTexts spec) c schedCapacityScale scale ↔
      scale = (topoEntries E k spec masks).2.caps c := by
  have hread : ∀ text ∈ capTexts spec, ∀ g,
      readGroup E k .cap text = some g ↔ CapGroup E k text g.1 g.2 := by
    intro text htext g
    obtain ⟨value, hvalue, hmem⟩ := List.mem_flatMap.mp htext
    constructor
    · intro hg
      have hgroup := keyGroup_of_readGroup hg
      rwa [KeyGroup, if_pos rfl] at hgroup
    · intro hg
      refine KeyGroup.readGroup ?_ fun _ => hplain value hvalue text hmem
      rwa [KeyGroup, if_pos rfl]
  rw [(topoEntries_writes hlen h).2, capWrites_eq]
  exact lastScale_iff hread fun _ => schedCapacityScale

theorem boot_slices (hboot : kstepCpuInit E (M.boot E) = some t₀) : E.slicesByFormula = true := by
  simp only [kstepCpuInit] at hboot
  split_ifs at hboot
  obtain ⟨⟨err, t'⟩, hset, rfl⟩ := Option.map_eq_some_iff.mp hboot
  rcases kstepTopoSet_cases hset with ⟨hnone, _⟩ | ⟨k, table, masks, _, _, herr, hend⟩
  · simp [topoCpus_nil] at hnone
  · rw [topoEntries_nil] at herr
    rcases hend with ⟨hne, _⟩ | ⟨_, happly⟩
    · exact absurd herr hne
    · exact (topoApply_isSome_iff.mp ⟨t', happly⟩).2

/-- A spec is accepted when it is well formed and the kernel can set its capacities. -/
theorem accepted_iff (ht : TableReady t₀.table) (hslices : E.slicesByFormula = true)
    (hlen : spec.length < cpuSpecLen) (hplain : PlainCaps E spec) :
    (∃ t, kstepTopoSet E t₀ spec = some (none, t)) ↔
      WellFormed E spec ∧ CapacityFits E spec := by
  rw [wellFormed_iff hplain]
  constructor
  · rintro ⟨t, h⟩
    obtain ⟨k, hk⟩ := accepted_topoCpus h
    obtain ⟨masks, -, herr, -, -, hset, -⟩ := accepted_cases ht h hk
    obtain ⟨hcpus, rfl⟩ := (topoCpus_eq_some_iff hlen).mp hk
    refine ⟨⟨hcpus, (topoEntries_none_iff hlen).mp herr⟩, ?_⟩
    by_cases hcap : E.capSettable = true
    · exact Or.inl hcap
    · refine Or.inr fun c hc => (topoEntries_scale hlen hplain herr).mpr ?_
      by_contra hne
      exact hcap (hset.1 ⟨c, hc, Ne.symm hne⟩)
  · rintro ⟨⟨hcpus, hentries⟩, hfits⟩
    have hk : topoCpus E spec = some (specCount E spec) :=
      (topoCpus_eq_some_iff hlen).mpr ⟨hcpus, rfl⟩
    obtain ⟨masks, hinit, -⟩ := topoInit_ready E (testCpus (specCount E spec)) ht t₀.masks
    have herr : (topoEntries E (specCount E spec) spec masks).1 = none :=
      (topoEntries_none_iff hlen).mpr hentries
    have hset : CapsSettable E (specCount E spec)
        (topoEntries E (specCount E spec) spec masks).2.caps := by
      refine ⟨fun ⟨c, hc, hne⟩ => ?_, hslices⟩
      rcases hfits with hcap | hfull
      · exact hcap
      · exact absurd ((topoEntries_scale hlen hplain herr).mp (hfull c hc)).symm hne
    exact accepted_of_passes hk hinit herr hset

/-! ### What an accepted spec leaves -/

theorem unnamed_of_valuesFor (hlen : spec.length < cpuSpecLen)
    (h : valuesFor (.level level) spec = []) : Unnamed spec level := by
  intro entry hmem hlevel
  rw [specEntries_eq hlen] at hmem
  have hnone := List.filterMap_eq_nil_iff.mp h entry hmem
  unfold entryLevel at hlevel
  split at hlevel
  next name c rest hsep =>
    split at hlevel
    next l hkey =>
      cases hlevel
      have hname := parseKey_eq_some_iff.mp hkey
      simp [valueFor, strchr, hsep, hname] at hnone
    next => cases hlevel
  next => cases hlevel

theorem accepted_means (hboot : kstepCpuInit E (M.boot E) = some t₀)
    (hlen : spec.length < cpuSpecLen) (hplain : PlainCaps E spec)
    (h : kstepTopoSet E t₀ spec = some (none, t)) : Means E M spec t := by
  have h₀ := (kstepCpuInit_boot hboot).1
  obtain ⟨k, hk⟩ := accepted_topoCpus h
  obtain ⟨masks, -, herr, hmasks, hcount, -, hcap⟩ := accepted_cases h₀.ready h hk
  have htable : t.table = t₀.table := (kstepTopoSet_ready h₀.ready h).1
  have hready : TableReady t.table := htable ▸ h₀.ready
  obtain ⟨hlevels, -⟩ := topoEntries_writes hlen herr
  subst hcount
  refine ⟨((topoCpus_eq_some_iff hlen).mp hk).2, fun tl hmem => ?_,
    fun level value hlast c hc => ?_, fun tl hmem level hname hvalues c hc => ?_,
    fun tl hmem c hc hct => ?_, fun c hc => ?_⟩
  · obtain ⟨level, hname, hmask⟩ := hready tl hmem
    exact ⟨level, hname, topoMask_kstep hmask t.masks⟩
  · rw [hmasks, hlevels level]
    exact levelWrites_mask hlast hc _
  · have hlevel : HasLevel t₀.table level := ⟨tl, htable ▸ hmem, hready.mask hmem hname⟩
    exact fresh_unnamed hboot h hk hlevel (unnamed_of_valuesFor hlen hvalues) hc
  · obtain ⟨level, hname, hmask⟩ := hready tl hmem
    have hlevel : HasLevel t₀.table level := ⟨tl, htable ▸ hmem, hmask⟩
    rw [topoMask_kstep hmask]
    exact accepted_alone h₀.ready h hk hlevel (Finset.mem_range.mpr hc) hct
  · exact (topoEntries_scale hlen hplain herr).mpr (hcap c hc)

/-! ### The order of the entries -/

theorem valuesFor_perm (hperm : (spec'.splitOn ';').Perm (spec.splitOn ';'))
    (hone : (valuesFor key spec).length ≤ 1) : valuesFor key spec' = valuesFor key spec := by
  have hvalues : (valuesFor key spec').Perm (valuesFor key spec) := hperm.filterMap _
  cases hspec : valuesFor key spec with
  | nil =>
      rw [hspec] at hvalues
      exact hvalues.eq_nil
  | cons value values =>
      rw [hspec] at hvalues hone
      obtain rfl : values = [] := List.eq_nil_of_length_eq_zero (by simpa using hone)
      exact List.perm_singleton.mp hvalues

theorem Draft.eq_of_fields {d d' : Draft} (hmasks : d.masks = d'.masks) (hcaps : d.caps = d'.caps) :
    d = d' := by
  cases d
  cases d'
  rw [Draft.mk.injEq]
  exact ⟨hmasks, hcaps⟩

/-- Entries with pairwise different keys may come in any order. -/
theorem accepted_perm (ht : TableReady t₀.table) (hlen : spec.length < cpuSpecLen)
    (hlen' : spec'.length < cpuSpecLen) (hperm : (spec'.splitOn ';').Perm (spec.splitOn ';'))
    (hone : ∀ key, (valuesFor key spec).length ≤ 1)
    (h : kstepTopoSet E t₀ spec = some (none, t)) :
    kstepTopoSet E t₀ spec' = some (none, t) := by
  have hsame (key : Key) := valuesFor_perm hperm (hone key)
  obtain ⟨k, hk⟩ := accepted_topoCpus h
  obtain ⟨masks, hinit, herr, -⟩ := accepted_cases ht h hk
  have hk' : topoCpus E spec' = some k := by
    obtain ⟨hcpus, hcount⟩ := (topoCpus_eq_some_iff hlen).mp hk
    rw [topoCpus_eq_some_iff hlen', specCount, hsame .cpus]
    exact ⟨hcpus, hcount⟩
  have herr' : (topoEntries E k spec' masks).1 = none := by
    rw [topoEntries_none_iff hlen']
    exact fun entry hmem => (topoEntries_none_iff hlen).mp herr entry (hperm.subset hmem)
  have hentries : topoEntries E k spec' masks = topoEntries E k spec masks := by
    obtain ⟨hlevels, hcaps⟩ := topoEntries_writes hlen herr
    obtain ⟨hlevels', hcaps'⟩ := topoEntries_writes hlen' herr'
    refine Prod.ext (herr'.trans herr.symm) (Draft.eq_of_fields ?_ ?_)
    · funext level
      rw [hlevels, hlevels', hsame (.level level)]
    · rw [hcaps, hcaps', hsame .cap]
  rw [← h]
  simp only [kstepTopoSet, hk, hk', hinit, hentries]

/-- The topology spec language. A spec applied first after boot, in none of whose `CAP` groups the
cpulist has a colon, is accepted when it is well formed and the kernel can set its capacities; an
accepted spec leaves the state it describes, and the same state in any order of entries with
different keys. -/
theorem topology_spec_means (E : Env) (M : Machine) (t₀ : Topo) (spec : List Char)
    (hboot : kstepCpuInit E (M.boot E) = some t₀) (hlen : spec.length < cpuSpecLen)
    (hplain : PlainCaps E spec) :
    ((∃ t, kstepTopoSet E t₀ spec = some (none, t)) ↔ WellFormed E spec ∧ CapacityFits E spec) ∧
    ∀ t, kstepTopoSet E t₀ spec = some (none, t) → Means E M spec t ∧
      ∀ spec' : List Char, spec'.length < cpuSpecLen →
        (spec'.splitOn ';').Perm (spec.splitOn ';') →
        (∀ key, (valuesFor key spec).length ≤ 1) → kstepTopoSet E t₀ spec' = some (none, t) := by
  have ht := (kstepCpuInit_boot hboot).1.ready
  refine ⟨accepted_iff ht (boot_slices hboot) hlen hplain, fun t h => ?_⟩
  refine ⟨accepted_means hboot hlen hplain h, fun spec' hlen' hperm hone => ?_⟩
  exact accepted_perm ht hlen hlen' hperm hone h

theorem fourCpuEnv_plainCaps (spec : List Char) : PlainCaps fourCpuEnv spec := by
  intro value _ text _ list val _ hparse
  have hlist : list = "1-2".toList := by
    by_contra hne
    exact hparse (if_neg hne)
  rw [hlist]
  decide

theorem topology_spec_means_four_cpus :
    ∃ t₀ t, kstepCpuInit fourCpuEnv (fourCpuMachine.boot fourCpuEnv) = some t₀ ∧
      kstepTopoSet fourCpuEnv t₀ "CPUS=2;MC=1-2;CAP=1-2:512".toList = some (none, t) ∧
      Means fourCpuEnv fourCpuMachine "CPUS=2;MC=1-2;CAP=1-2:512".toList t :=
  ⟨_, _, rfl, rfl, ((topology_spec_means fourCpuEnv fourCpuMachine _ _ rfl (by decide)
    (fourCpuEnv_plainCaps _)).2 _ rfl).1⟩

def fixedCapEnv : Env := { fourCpuEnv with capSettable := false }

def stridedEnv : Env :=
  { fourCpuEnv with cpulistParse := fun list =>
      if list = "1-3:1/2".toList then some {1, 3} else none }

theorem capSpec_wellFormed (list : List Char) (group : Finset ℕ)
    (hentries : ("CAP=".toList ++ list ++ ":512".toList).splitOn ';' =
      ["CAP=".toList ++ list ++ ":512".toList])
    (hgroups : (list ++ ":512".toList).splitOn '|' = [list ++ ":512".toList])
    (hcount : specCount E ("CAP=".toList ++ list ++ ":512".toList) = 3)
    (hgroup : CpuGroup E 3 list group)
    (hint : E.kstrtoint = CString.kstrtoint) :
    WellFormed E ("CAP=".toList ++ list ++ ":512".toList) := by
  intro entry hmem _
  rw [hentries, List.mem_singleton] at hmem
  subst hmem
  refine ⟨.cap, list ++ ":512".toList, ?_, by simp, ?_⟩
  · exact valueFor_eq_some_iff.mpr ⟨"CAP".toList, List.mem_singleton.mpr rfl, rfl⟩
  · rw [ValueOk, if_neg (by decide), hcount]
    refine ⟨[(group, 512)], ?_, List.pairwise_singleton _ _⟩
    rw [hgroups]
    refine List.Forall₂.cons ?_ List.Forall₂.nil
    rw [KeyGroup, if_pos rfl]
    have hscale : E.kstrtoint "512".toList = some 512 := by
      rw [hint]
      decide
    have hrange : 512 ≤ schedCapacityScale := by decide
    exact ⟨list, "512".toList, rfl, hgroup, hscale, by omega, hrange⟩

/-- A well-formed spec is refused where the kernel's capacities are fixed, by a panic; and where a
`CAP` group's cpulist has a colon of its own. -/
theorem wellFormed_refused :
    (¬ ∀ (E : Env) (M : Machine) (t₀ : Topo) (spec : List Char),
      kstepCpuInit E (M.boot E) = some t₀ → spec.length < cpuSpecLen →
        ((∃ t, kstepTopoSet E t₀ spec = some (none, t)) ↔ WellFormed E spec)) ∧
    ∃ t₀ t err, kstepCpuInit stridedEnv (fourCpuMachine.boot stridedEnv) = some t₀ ∧
      WellFormed stridedEnv "CAP=1-3:1/2:512".toList ∧
      kstepTopoSet stridedEnv t₀ "CAP=1-3:1/2:512".toList = some (some err, t) := by
  constructor
  · intro hholds
    have hwell : WellFormed fixedCapEnv "CAP=1-2:512".toList :=
      capSpec_wellFormed "1-2".toList {1, 2} rfl rfl rfl ⟨rfl, by decide, by decide⟩ rfl
    obtain ⟨t, ht⟩ := (hholds fixedCapEnv fourCpuMachine _ "CAP=1-2:512".toList rfl
      (by decide)).mpr hwell
    cases ht
  · have hwell : WellFormed stridedEnv "CAP=1-3:1/2:512".toList :=
      capSpec_wellFormed "1-3:1/2".toList {1, 3} rfl rfl rfl ⟨rfl, by decide, by decide⟩ rfl
    exact ⟨_, _, _, rfl, hwell, rfl⟩

end KStep.Topology
