import KStep.TopologyGroups

/-!
# What an accepted spec writes

An accepted entry writes its own key and nothing else, so the masks of a level are written by the
values of that level alone, in order, and the capacities by those of `CAP`. The last value of a
level decides every test CPU's mask: the group that names the CPU, or the CPU alone. The last group
under `CAP` that names a CPU decides its capacity.
-/

namespace KStep.Topology

open EarlyExit CString Blocks

def levelWrite (E : Env) (k : ℕ) (level : Level) (value : List Char) (m : ℕ → Finset ℕ) :
    ℕ → Finset ℕ :=
  (readGroups E k (.level level) value).foldl (fun m g => merge g.1 m) (singletons (testCpus k) m)

def setScale (caps : ℕ → ℕ) (g : Finset ℕ × ℕ) (c : ℕ) : ℕ := if c ∈ g.1 then g.2 else caps c

def capWrite (E : Env) (k : ℕ) (value : List Char) (caps : ℕ → ℕ) : ℕ → ℕ :=
  (readGroups E k .cap value).foldl setScale caps

/-- The mask of a CPU at a level with this value: the group that names it, or itself alone. -/
def LevelMask (E : Env) (k : ℕ) (value : List Char) (c : ℕ) (mask : Finset ℕ) : Prop :=
  (∃ text ∈ value.splitOn '|', CpuGroup E k text mask ∧ c ∈ mask) ∨
    (∀ text ∈ value.splitOn '|', ∀ group, CpuGroup E k text group → c ∉ group) ∧ mask = {c}

def capTexts (spec : List Char) : List (List Char) :=
  (valuesFor .cap spec).flatMap fun value => value.splitOn '|'

/-- The scale of the last of these groups that names a CPU, or `full`. -/
def LastScale (E : Env) (k : ℕ) (texts : List (List Char)) (c full scale : ℕ) : Prop :=
  (∃ before text after group, texts = before ++ text :: after ∧ CapGroup E k text group scale ∧
      c ∈ group ∧ ∀ text' ∈ after, ∀ group' scale', CapGroup E k text' group' scale' → c ∉ group') ∨
    (∀ text ∈ texts, ∀ group scale', CapGroup E k text group scale' → c ∉ group) ∧ scale = full

variable {E : Env} {k c : ℕ} {key : Key} {level : Level} {spec entry value : List Char}

/-! ### One entry -/

theorem writeValue_masks_self (d : Draft) :
    (writeValue E k (.level level) value d).masks level =
      levelWrite E k level value (d.masks level) := by
  rw [writeValue, levelWrite, ← resetKey_masks_self]
  exact (List.foldl_hom (fun d : Draft => d.masks level) fun d g =>
    (writeGroup_masks_self level d g.1 g.2).symm).symm

theorem writeValue_masks_ne (hkey : key ≠ .level level) (d : Draft) :
    (writeValue E k key value d).masks level = d.masks level := by
  refine List.foldlRecOn (motive := fun d' : Draft => d'.masks level = d.masks level) _ _
    (resetKey_masks_ne hkey d) fun d' hd' g _ => ?_
  rw [writeGroup_masks_ne hkey]
  exact hd'

theorem writeValue_caps_self (d : Draft) :
    (writeValue E k .cap value d).caps = capWrite E k value d.caps := by
  rw [writeValue, capWrite, ← resetKey_caps (k := k) .cap d]
  exact (List.foldl_hom Draft.caps fun _ _ => rfl).symm

theorem writeValue_caps_ne (hkey : key ≠ .cap) (d : Draft) :
    (writeValue E k key value d).caps = d.caps := by
  refine List.foldlRecOn (motive := fun d' : Draft => d'.caps = d.caps) _ _ (resetKey_caps key d)
    fun d' hd' g _ => ?_
  cases key with
  | level l => exact hd'
  | cap => exact absurd rfl hkey
  | cpus => exact hd'

theorem valueFor_ne {key' : Key} (h : valueFor key entry = some value) (hne : key ≠ key') :
    valueFor key' entry = none := by
  cases hvalue : valueFor key' entry with
  | none => rfl
  | some value' => exact absurd (valueFor_unique h hvalue).1 hne

/-- The entries of a spec write each level, and the capacities, by the values for them alone. -/
theorem topoSetEntries_writes {entries : List (List Char)} {d d' : Draft}
    (h : stopFold (topoSetEntry E k) entries d = (none, d')) :
    (∀ level, d'.masks level = (entries.filterMap (valueFor (.level level))).foldl
      (fun m value => levelWrite E k level value m) (d.masks level)) ∧
    d'.caps = (entries.filterMap (valueFor .cap)).foldl
      (fun caps value => capWrite E k value caps) d.caps := by
  induction entries generalizing d with
  | nil =>
      cases h
      exact ⟨fun _ => rfl, rfl⟩
  | cons entry entries ih =>
      by_cases hentry : entry = []
      · subst hentry
        rw [stopFold_cons_ok (t := d) rfl] at h
        exact ih h
      have hstep : (topoSetEntry E k d entry).1 = none := by
        by_contra herr
        obtain ⟨e, he⟩ := Option.ne_none_iff_exists'.mp herr
        rw [stopFold_cons_error (Prod.ext he rfl)] at h
        cases h
      obtain ⟨key, value, hvalue, hok⟩ := topoSetEntry_accepted hstep hentry
      rw [stopFold_cons_ok (topoSetEntry_ok d hvalue hok)] at h
      obtain ⟨hmasks, hcaps⟩ := ih h
      refine ⟨fun level => ?_, ?_⟩
      · rw [hmasks level]
        by_cases hkey : key = .level level
        · subst hkey
          rw [List.filterMap_cons_some hvalue, List.foldl_cons, writeValue_masks_self]
        · rw [List.filterMap_cons_none (valueFor_ne hvalue hkey), writeValue_masks_ne hkey]
      · rw [hcaps]
        by_cases hkey : key = .cap
        · subst hkey
          rw [List.filterMap_cons_some hvalue, List.foldl_cons, writeValue_caps_self]
        · rw [List.filterMap_cons_none (valueFor_ne hvalue hkey), writeValue_caps_ne hkey]

/-! ### Levels -/

theorem readGroup_level {text : List Char} {g : Finset ℕ × ℕ} :
    readGroup E k (.level level) text = some g ↔ CpuGroup E k text g.1 ∧ g.2 = 0 := by
  constructor
  · intro h
    have hgroup := keyGroup_of_readGroup h
    rwa [KeyGroup, if_neg (by simp)] at hgroup
  · intro h
    refine KeyGroup.readGroup ?_ (by simp)
    rwa [KeyGroup, if_neg (by simp)]

/-- Of several groups merged in turn, one that names a CPU is its mask. -/
theorem foldl_merge (groups : List (Finset ℕ × ℕ)) (m : ℕ → Finset ℕ) :
    (∃ g ∈ groups, c ∈ g.1 ∧ groups.foldl (fun m g => merge g.1 m) m c = g.1) ∨
      (∀ g ∈ groups, c ∉ g.1) ∧ groups.foldl (fun m g => merge g.1 m) m c = m c := by
  induction groups generalizing m with
  | nil => exact Or.inr ⟨by simp, rfl⟩
  | cons g groups ih =>
      rw [List.foldl_cons]
      rcases ih (merge g.1 m) with ⟨g', hmem, hc, heq⟩ | ⟨hnone, heq⟩
      · exact Or.inl ⟨g', List.mem_cons_of_mem g hmem, hc, heq⟩
      · by_cases hc : c ∈ g.1
        · refine Or.inl ⟨g, List.mem_cons_self, hc, heq.trans ?_⟩
          rw [merge, if_pos hc]
        · refine Or.inr ⟨List.forall_mem_cons.mpr ⟨hc, hnone⟩, heq.trans ?_⟩
          rw [merge, if_neg hc]

theorem levelWrite_mask (hc : c ∈ testCpus k) (m : ℕ → Finset ℕ) :
    LevelMask E k value c (levelWrite E k level value m c) := by
  rcases foldl_merge (c := c) (readGroups E k (.level level) value) (singletons (testCpus k) m) with
    ⟨g, hmem, hcg, heq⟩ | ⟨hnone, heq⟩
  · obtain ⟨text, htext, hread⟩ := List.mem_filterMap.mp hmem
    rw [levelWrite, heq]
    exact Or.inl ⟨text, htext, (readGroup_level.mp hread).1, hcg⟩
  · refine Or.inr ⟨fun text htext group hgroup => ?_, ?_⟩
    · have hread : readGroup E k (.level level) text = some (group, 0) :=
        readGroup_level.mpr ⟨hgroup, rfl⟩
      exact hnone (group, 0) (List.mem_filterMap.mpr ⟨text, htext, hread⟩)
    · rw [levelWrite, heq, singletons, if_pos hc]

/-- The last value of a level decides the masks of the test CPUs. -/
theorem levelWrites_mask {values : List (List Char)} (hlast : values.getLast? = some value)
    (hc : c ∈ testCpus k) (m : ℕ → Finset ℕ) :
    LevelMask E k value c (values.foldl (fun m value => levelWrite E k level value m) m c) := by
  obtain ⟨before, rfl⟩ := List.getLast?_eq_some_iff.mp hlast
  rw [List.foldl_append]
  exact levelWrite_mask hc _

/-! ### Capacities -/

theorem capWrites_eq (values : List (List Char)) (caps : ℕ → ℕ) :
    values.foldl (fun caps value => capWrite E k value caps) caps =
      ((values.flatMap fun value => value.splitOn '|').filterMap
        (readGroup E k .cap)).foldl setScale caps := by
  induction values generalizing caps with
  | nil => rfl
  | cons value values ih =>
      rw [List.foldl_cons, ih, List.flatMap_cons, List.filterMap_append, List.foldl_append]
      rfl

theorem lastScale_cons_iff {text : List Char} {texts : List (List Char)} {full scale : ℕ} :
    LastScale E k (text :: texts) c full scale ↔ ∃ full', LastScale E k texts c full' scale ∧
      ((∃ group, CapGroup E k text group full' ∧ c ∈ group) ∨
        (∀ group scale', CapGroup E k text group scale' → c ∉ group) ∧ full' = full) := by
  constructor
  · rintro (⟨before, text', after, group, heq, hgroup, hcg, hafter⟩ | ⟨hnone, rfl⟩)
    · cases before with
      | nil =>
          cases heq
          exact ⟨scale, Or.inr ⟨hafter, rfl⟩, Or.inl ⟨group, hgroup, hcg⟩⟩
      | cons text before =>
          cases heq
          have hlater (full' : ℕ) : LastScale E k (before ++ text' :: after) c full' scale :=
            Or.inl ⟨before, text', after, group, rfl, hgroup, hcg, hafter⟩
          by_cases hnamed : ∃ full' group, CapGroup E k text group full' ∧ c ∈ group
          · obtain ⟨full', hfull⟩ := hnamed
            exact ⟨full', hlater full', Or.inl hfull⟩
          · refine ⟨full, hlater full, Or.inr ⟨fun group' scale' hgroup' hc => ?_, rfl⟩⟩
            exact hnamed ⟨scale', group', hgroup', hc⟩
    · rw [List.forall_mem_cons] at hnone
      exact ⟨scale, Or.inr ⟨hnone.2, rfl⟩, Or.inr ⟨hnone.1, rfl⟩⟩
  · rintro ⟨full', h, hfull⟩
    rcases h with ⟨before, text', after, group, rfl, hgroup, hcg, hafter⟩ | ⟨hnone, rfl⟩
    · exact Or.inl ⟨text :: before, text', after, group, rfl, hgroup, hcg, hafter⟩
    · rcases hfull with ⟨group, hgroup, hcg⟩ | ⟨hnot, hfull⟩
      · exact Or.inl ⟨[], text, texts, group, rfl, hgroup, hcg, hnone⟩
      · exact Or.inr ⟨List.forall_mem_cons.mpr ⟨hnot, hnone⟩, hfull⟩

/-- The last group that names a CPU decides its capacity. -/
theorem lastScale_iff {texts : List (List Char)} {scale : ℕ}
    (hread : ∀ text ∈ texts, ∀ g, readGroup E k .cap text = some g ↔ CapGroup E k text g.1 g.2)
    (caps : ℕ → ℕ) : LastScale E k texts c (caps c) scale ↔
      scale = (texts.filterMap (readGroup E k .cap)).foldl setScale caps c := by
  induction texts generalizing caps with
  | nil => simp [LastScale]
  | cons text texts ih =>
      rw [List.forall_mem_cons] at hread
      rw [lastScale_cons_iff]
      cases hg : readGroup E k .cap text with
      | none =>
          have hnot (group : Finset ℕ) (scale' : ℕ) : ¬ CapGroup E k text group scale' := by
            intro hgroup
            rw [(hread.1 (group, scale')).mpr hgroup] at hg
            cases hg
          rw [List.filterMap_cons_none hg, ← ih hread.2 caps]
          simp [hnot]
      | some g =>
          have honly (group : Finset ℕ) (scale' : ℕ) :
              CapGroup E k text group scale' ↔ group = g.1 ∧ scale' = g.2 := by
            rw [← hread.1 (group, scale'), hg, Option.some.injEq, Prod.ext_iff, eq_comm,
              eq_comm (a := g.2)]
          rw [List.filterMap_cons_some hg, List.foldl_cons, ← ih hread.2 (setScale caps g),
            setScale]
          simp only [honly]
          split_ifs with hcg
          · simp [hcg]
          · simp [hcg]

end KStep.Topology
