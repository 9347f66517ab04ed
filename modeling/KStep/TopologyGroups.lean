import KStep.TopologyGrammar

/-!
# The groups of a spec and what they write

The second pass of `kstep_topo_set` accepts the entries the language allows, and each accepted entry
writes one level's masks or the capacities, whatever was there before. Under `CAP` the code takes
the first colon of a group for the one before the scale.
-/

namespace KStep.Topology

open EarlyExit CString Blocks

variable {E : Env} {k : ℕ} {key : Key} {spec entry value text : List Char}

theorem kstepParseCpus_eq_some_iff {list : List Char} {group : Finset ℕ} :
    kstepParseCpus E k list = some group ↔ CpuGroup E k list group := by
  constructor
  · intro h
    have hsub := kstepParseCpus_subset h
    simp only [kstepParseCpus] at h
    split at h
    next => cases h
    next mask hparse =>
      split_ifs at h with hmask
      cases h
      exact ⟨hparse, hmask.1, hsub⟩
  · rintro ⟨hparse, hne, hsub⟩
    have hzero : 0 ∉ group := fun hmem => by simpa [testCpus] using hsub hmem
    have hlast : cpumaskLast group ≤ k :=
      Finset.sup_le fun c hc => (Finset.mem_Icc.mp (hsub hc)).2
    simp only [kstepParseCpus, hparse]
    exact if_pos ⟨hne, hzero, hlast⟩

def readGroup (E : Env) (k : ℕ) (key : Key) (text : List Char) : Option (Finset ℕ × ℕ) :=
  match groupScale E key text with
  | .ok (list, scale) => (kstepParseCpus E k list).map fun group => (group, scale)
  | .error _ => none

def readGroups (E : Env) (k : ℕ) (key : Key) (value : List Char) : List (Finset ℕ × ℕ) :=
  (value.splitOn '|').filterMap (readGroup E k key)

theorem readGroup_eq_some_iff {g : Finset ℕ × ℕ} : readGroup E k key text = some g ↔
    ∃ list, groupScale E key text = .ok (list, g.2) ∧ CpuGroup E k list g.1 := by
  cases hscale : groupScale E key text with
  | error e => simp [readGroup, hscale]
  | ok parts =>
      obtain ⟨list, scale⟩ := parts
      simp only [readGroup, hscale, Option.map_eq_some_iff, kstepParseCpus_eq_some_iff]
      constructor
      · rintro ⟨group, hgroup, rfl⟩
        exact ⟨list, rfl, hgroup⟩
      · rintro ⟨list', heq, hgroup⟩
        obtain ⟨rfl, hscale'⟩ := Prod.mk.inj (Except.ok.inj heq)
        exact ⟨g.1, hgroup, Prod.ext rfl hscale'⟩

theorem groupScale_cap {list : List Char} {scale : ℕ} :
    groupScale E .cap text = .ok (list, scale) ↔ ∃ val, strchr ':' text = some (list, val) ∧
      E.kstrtoint val = some (scale : ℤ) ∧ 1 ≤ scale ∧ scale ≤ schedCapacityScale := by
  simp only [groupScale, if_true]
  constructor
  · intro h
    split at h
    next => cases h
    next list val hcut =>
      split at h
      next => cases h
      next n hint =>
        split_ifs at h with hrange
        cases h
        refine ⟨val, hcut, ?_, by omega, by omega⟩
        rw [hint, Int.toNat_of_nonneg (by omega)]
  · rintro ⟨val, hcut, hint, hlow, hhigh⟩
    have hrange : ¬ ((scale : ℤ) < 1 ∨ (schedCapacityScale : ℤ) < scale) := by omega
    simp only [hcut, hint, if_neg hrange, Int.toNat_natCast]

theorem keyGroup_of_readGroup {g : Finset ℕ × ℕ} (h : readGroup E k key text = some g) :
    KeyGroup E k key text g := by
  obtain ⟨list, hscale, hgroup⟩ := readGroup_eq_some_iff.mp h
  unfold KeyGroup
  by_cases hcap : key = .cap
  · subst hcap
    rw [if_pos rfl]
    obtain ⟨val, hcut, hint, hlow, hhigh⟩ := groupScale_cap.mp hscale
    exact ⟨list, val, (strchr_eq_some_iff.mp hcut).2, hgroup, hint, hlow, hhigh⟩
  · rw [if_neg hcap]
    rw [groupScale, if_neg hcap] at hscale
    obtain ⟨rfl, hzero⟩ := Prod.mk.inj (Except.ok.inj hscale)
    exact ⟨hgroup, hzero.symm⟩

/-- A group the language allows is the code's, when the cpulist of a `CAP` group has no colon. -/
theorem KeyGroup.readGroup {g : Finset ℕ × ℕ} (h : KeyGroup E k key text g)
    (hplain : key = .cap → ∀ list val, text = list ++ ':' :: val → E.cpulistParse list ≠ none →
      ':' ∉ list) : readGroup E k key text = some g := by
  rw [readGroup_eq_some_iff]
  unfold KeyGroup at h
  by_cases hcap : key = .cap
  · rw [if_pos hcap] at h
    obtain ⟨list, val, heq, hgroup, hint, hlow, hhigh⟩ := h
    have hclean : ':' ∉ list := hplain hcap list val heq (by rw [hgroup.1]; simp)
    refine ⟨list, ?_, hgroup⟩
    rw [hcap]
    exact groupScale_cap.mpr ⟨val, strchr_eq_some_iff.mpr ⟨hclean, heq⟩, hint, hlow, hhigh⟩
  · rw [if_neg hcap] at h
    refine ⟨text, ?_, h.1⟩
    rw [groupScale, if_neg hcap, h.2]

theorem topoSetGroup_ok {g : Finset ℕ × ℕ} {seen : Finset ℕ} (d : Draft)
    (hg : readGroup E k key text = some g) (hdis : Disjoint g.1 seen) :
    topoSetGroup E k key (d, seen) text = (none, writeGroup key d g.1 g.2, seen ∪ g.1) := by
  obtain ⟨list, hscale, hgroup⟩ := readGroup_eq_some_iff.mp hg
  simp only [topoSetGroup, hscale, topoParseGroup, kstepParseCpus_eq_some_iff.mpr hgroup,
    if_pos hdis]

theorem topoSetGroup_none {seen : Finset ℕ} {d : Draft}
    (h : (topoSetGroup E k key (d, seen) text).1 = none) :
    ∃ g, readGroup E k key text = some g ∧ Disjoint g.1 seen := by
  simp only [topoSetGroup] at h
  split at h
  next => cases h
  next list scale hscale =>
    split at h
    next => cases h
    next group hparse =>
      simp only [topoParseGroup] at hparse
      split at hparse
      next => cases hparse
      next group' hgroup =>
        split_ifs at hparse with hdis
        cases hparse
        refine ⟨(group, scale), readGroup_eq_some_iff.mpr ⟨list, hscale, ?_⟩, hdis⟩
        exact kstepParseCpus_eq_some_iff.mp hgroup

/-- The loop over a value's groups runs through when each is a group and no CPU comes twice. -/
theorem topoSetGroups_ok {texts : List (List Char)} {groups : List (Finset ℕ × ℕ)}
    {seen : Finset ℕ} (d : Draft)
    (hgroups : List.Forall₂ (fun text g => readGroup E k key text = some g) texts groups)
    (hdis : (groups.map Prod.fst).Pairwise Disjoint)
    (hseen : ∀ g ∈ groups, Disjoint g.1 seen) :
    ∃ seen', stopFold (topoSetGroup E k key) texts (d, seen) =
      (none, groups.foldl (fun d g => writeGroup key d g.1 g.2) d, seen') := by
  induction hgroups generalizing d seen with
  | nil => exact ⟨seen, rfl⟩
  | cons hg _ ih =>
      rw [List.map_cons, List.pairwise_cons] at hdis
      rw [List.forall_mem_cons] at hseen
      rw [stopFold_cons_ok (topoSetGroup_ok d hg hseen.1), List.foldl_cons]
      refine ih _ hdis.2 fun g hmem => Finset.disjoint_union_right.mpr ⟨hseen.2 g hmem, ?_⟩
      exact (hdis.1 g.1 (List.mem_map_of_mem hmem)).symm

theorem topoSetGroups_none {texts : List (List Char)} {seen : Finset ℕ} {d : Draft}
    (h : (stopFold (topoSetGroup E k key) texts (d, seen)).1 = none) :
    ∃ groups, List.Forall₂ (fun text g => readGroup E k key text = some g) texts groups ∧
      (groups.map Prod.fst).Pairwise Disjoint ∧ ∀ g ∈ groups, Disjoint g.1 seen := by
  induction texts generalizing d seen with
  | nil => exact ⟨[], List.Forall₂.nil, List.Pairwise.nil, by simp⟩
  | cons text texts ih =>
      have hstep : (topoSetGroup E k key (d, seen) text).1 = none := by
        by_contra herr
        obtain ⟨e, he⟩ := Option.ne_none_iff_exists'.mp herr
        rw [stopFold_cons_error (Prod.ext he rfl)] at h
        cases h
      obtain ⟨g, hg, hdis⟩ := topoSetGroup_none hstep
      rw [stopFold_cons_ok (topoSetGroup_ok d hg hdis)] at h
      obtain ⟨groups, hgroups, hpair, hseen⟩ := ih h
      refine ⟨g :: groups, List.Forall₂.cons hg hgroups, ?_, ?_⟩
      · rw [List.map_cons, List.pairwise_cons]
        refine ⟨fun group hmem => ?_, hpair⟩
        obtain ⟨g', hmem', rfl⟩ := List.mem_map.mp hmem
        exact (Finset.disjoint_union_right.mp (hseen g' hmem')).2.symm
      · rw [List.forall_mem_cons]
        exact ⟨hdis, fun g' hmem => (Finset.disjoint_union_right.mp (hseen g' hmem)).1⟩

/-! ### Entries -/

def CodeGroups (E : Env) (k : ℕ) (key : Key) (value : List Char) : Prop :=
  List.Forall₂ (fun text g => readGroup E k key text = some g) (value.splitOn '|')
      (readGroups E k key value) ∧ ((readGroups E k key value).map Prod.fst).Pairwise Disjoint

def writeValue (E : Env) (k : ℕ) (key : Key) (value : List Char) (d : Draft) : Draft :=
  (readGroups E k key value).foldl (fun d g => writeGroup key d g.1 g.2) (resetKey k key d)

theorem topoSetEntry_value {d : Draft} (h : valueFor key entry = some value) (hne : value ≠ []) :
    topoSetEntry E k d entry = if key = .cpus then (none, d) else
      ((stopFold (topoSetGroup E k key) (value.splitOn '|') (resetKey k key d, ∅)).1,
        (stopFold (topoSetGroup E k key) (value.splitOn '|') (resetKey k key d, ∅)).2.1) := by
  obtain ⟨name, hname, rfl⟩ := valueFor_eq_some_iff.mp h
  have hclean : ∀ c ∈ name, (c == '=') = false := fun c hc =>
    beq_eq_false_iff_ne.mpr fun heq => names_clean hname (heq ▸ hc)
  have hsep : strsep (· == '=') (name ++ '=' :: value) = (name, some value) :=
    strsep_token_append hclean rfl
  obtain ⟨c, rest, rfl⟩ := List.exists_cons_of_ne_nil hne
  rw [topoSetEntry, if_neg (by simp), hsep]
  simp only [topoSetKey, parseKey_eq_some_iff.mpr hname]
  cases key with
  | cpus => rfl
  | cap => rfl
  | level l => rfl

theorem topoSetEntry_named {d : Draft} (h : (topoSetEntry E k d entry).1 = none)
    (hentry : entry ≠ []) : ∃ key value, valueFor key entry = some value ∧ value ≠ [] := by
  rw [topoSetEntry, if_neg hentry] at h
  rcases hsep : strsep (· == '=') entry with ⟨name, _ | _ | ⟨c, rest⟩⟩
  · simp [hsep] at h
  · simp [hsep] at h
  · cases hkey : parseKey name with
    | none => simp [hsep, topoSetKey, hkey] at h
    | some key =>
        refine ⟨key, c :: rest, ?_, List.cons_ne_nil c rest⟩
        have hname := any_names_iff.mpr (parseKey_eq_some_iff.mp hkey)
        simp only [valueFor, strchr, hsep, if_pos hname]

theorem readGroups_eq {texts : List (List Char)} {groups : List (Finset ℕ × ℕ)}
    (h : List.Forall₂ (fun text g => readGroup E k key text = some g) texts groups) :
    texts.filterMap (readGroup E k key) = groups := by
  induction h with
  | nil => rfl
  | cons hg _ ih => rw [List.filterMap_cons_some hg, ih]

/-- The `CPUS` entries were read ahead and write nothing. -/
theorem writeValue_cpus (d : Draft) : writeValue E k .cpus value d = d := by
  have hkeep : ∀ (groups : List (Finset ℕ × ℕ)) (d : Draft),
      groups.foldl (fun d g => writeGroup .cpus d g.1 g.2) d = d := by
    intro groups
    induction groups with
    | nil => exact fun _ => rfl
    | cons g groups ih => exact fun d => ih d
  exact hkeep _ d

def Accepted (E : Env) (k : ℕ) (key : Key) (value : List Char) : Prop :=
  value ≠ [] ∧ (key = .cpus ∨ CodeGroups E k key value)

theorem topoSetEntry_ok (d : Draft) (h : valueFor key entry = some value)
    (hok : Accepted E k key value) :
    topoSetEntry E k d entry = (none, writeValue E k key value d) := by
  rw [topoSetEntry_value h hok.1]
  by_cases hcpus : key = .cpus
  · rw [if_pos hcpus, hcpus, writeValue_cpus]
  · obtain ⟨hgroups, hdis⟩ := hok.2.resolve_left hcpus
    obtain ⟨seen, hfold⟩ :=
      topoSetGroups_ok (resetKey k key d) hgroups hdis fun g _ => Finset.disjoint_empty_right g.1
    rw [if_neg hcpus, hfold]
    rfl

theorem topoSetEntry_accepted {d : Draft} (h : (topoSetEntry E k d entry).1 = none)
    (hentry : entry ≠ []) : ∃ key value, valueFor key entry = some value ∧
      Accepted E k key value := by
  obtain ⟨key, value, hvalue, hne⟩ := topoSetEntry_named h hentry
  refine ⟨key, value, hvalue, hne, ?_⟩
  by_cases hcpus : key = .cpus
  · exact Or.inl hcpus
  · rw [topoSetEntry_value hvalue hne, if_neg hcpus] at h
    obtain ⟨groups, hgroups, hdis, -⟩ := topoSetGroups_none h
    obtain rfl := readGroups_eq hgroups
    exact Or.inr ⟨hgroups, hdis⟩

/-- The second pass accepts a spec whose nonempty entries are all accepted. -/
theorem topoSetEntries_none_iff {entries : List (List Char)} {d : Draft} :
    (stopFold (topoSetEntry E k) entries d).1 = none ↔
      ∀ entry ∈ entries, entry ≠ [] → ∃ key value, valueFor key entry = some value ∧
        Accepted E k key value := by
  induction entries generalizing d with
  | nil => simp
  | cons entry entries ih =>
      rw [List.forall_mem_cons]
      rcases hstep : topoSetEntry E k d entry with ⟨_ | e, d'⟩
      · rw [stopFold_cons_ok hstep, ih]
        exact (and_iff_right (topoSetEntry_accepted (by rw [hstep]))).symm
      · rw [stopFold_cons_error hstep]
        refine iff_of_false (Option.some_ne_none e) fun h => ?_
        have hentry : entry ≠ [] := by
          rintro rfl
          simp [topoSetEntry] at hstep
        obtain ⟨key, value, hvalue, hok⟩ := h.1 hentry
        rw [topoSetEntry_ok d hvalue hok] at hstep
        cases hstep

end KStep.Topology
