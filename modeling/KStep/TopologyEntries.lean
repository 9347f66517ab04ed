import KStep.Topology

/-!
# What the entries of a spec write

A level's entry resets that level's masks on the test CPUs and then writes one group after the
other, each of test CPUs no earlier group of the entry named. `LevelRule` turns what the reset and
a group write keep into what a whole spec keeps at that level, wherever the spec is rejected. An
entry leaves every level it does not name as it was, and reports errors that do not depend on the
masks.
-/

namespace KStep.Topology

open EarlyExit CString Blocks

variable {E : Env} {k : ℕ}

theorem kstepParseCpus_subset {list : List Char} {group : Finset ℕ}
    (h : kstepParseCpus E k list = some group) : group ⊆ testCpus k := by
  simp only [kstepParseCpus] at h
  split at h
  · cases h
  · split_ifs at h with hg
    cases h
    intro c hc
    have hlast : c ≤ cpumaskLast group := Finset.le_sup (f := id) hc
    have hc0 : c ≠ 0 := fun h0 => hg.2.1 (h0 ▸ hc)
    simp only [testCpus, Finset.mem_Icc]
    omega

theorem topoParseGroup_ok {list : List Char} {seen group : Finset ℕ}
    (h : topoParseGroup E k list seen = .ok group) :
    group ⊆ testCpus k ∧ Disjoint group seen := by
  simp only [topoParseGroup] at h
  split at h
  · cases h
  · split_ifs at h with hd
    cases h
    exact ⟨kstepParseCpus_subset ‹_›, hd⟩

/-- One group of a key is rejected and changes nothing, or writes test CPUs not seen before; which
of the two, and what is written, depends on the CPUs seen alone. -/
theorem topoSetGroup_cases (E : Env) (k : ℕ) (key : Key) (seen : Finset ℕ) (text : List Char) :
    (∃ e, ∀ d, topoSetGroup E k key (d, seen) text = (some e, d, seen)) ∨
      ∃ group scale, group ⊆ testCpus k ∧ Disjoint group seen ∧
        ∀ d, topoSetGroup E k key (d, seen) text =
          (none, writeGroup key d group scale, seen ∪ group) := by
  cases hscale : groupScale E key text with
  | error e => exact Or.inl ⟨e, fun d => by simp only [topoSetGroup, hscale]⟩
  | ok ls =>
      cases hparse : topoParseGroup E k ls.1 seen with
      | error e => exact Or.inl ⟨e, fun d => by simp only [topoSetGroup, hscale, hparse]⟩
      | ok group =>
          obtain ⟨hsub, hdis⟩ := topoParseGroup_ok hparse
          exact Or.inr ⟨group, ls.2, hsub, hdis, fun d => by
            simp only [topoSetGroup, hscale, hparse]⟩

theorem writeGroup_masks_self (level : Level) (d : Draft) (group : Finset ℕ) (scale : ℕ) :
    (writeGroup (.level level) d group scale).masks level = merge group (d.masks level) := by
  funext c
  simp only [writeGroup, if_true]

theorem writeGroup_masks_ne {key : Key} {level : Level} (hkey : key ≠ .level level) (d : Draft)
    (group : Finset ℕ) (scale : ℕ) :
    (writeGroup key d group scale).masks level = d.masks level := by
  cases key with
  | level l =>
      have hl : level ≠ l := fun h => hkey (by rw [h])
      funext c
      simp only [writeGroup, if_neg hl]
  | cap => rfl
  | cpus => rfl

theorem resetKey_masks_self (level : Level) (d : Draft) :
    (resetKey k (.level level) d).masks level = singletons (testCpus k) (d.masks level) := by
  funext c
  simp only [resetKey, if_true]

theorem resetKey_masks_ne {key : Key} {level : Level} (hkey : key ≠ .level level) (d : Draft) :
    (resetKey k key d).masks level = d.masks level := by
  cases key with
  | level l =>
      have hl : level ≠ l := fun h => hkey (by rw [h])
      funext c
      simp only [resetKey, if_neg hl]
  | cap => rfl
  | cpus => rfl

/-- A property `P` of a level's masks that an entry of the level keeps: `Q seen` holds after the
reset and after each group, with the CPUs named so far in `seen`, and gives `P` back. -/
structure LevelRule (k : ℕ) (P : (ℕ → Finset ℕ) → Prop)
    (Q : Finset ℕ → (ℕ → Finset ℕ) → Prop) : Prop where
  reset : ∀ m, P m → Q ∅ (singletons (testCpus k) m)
  write : ∀ seen m g, Q seen m → g ⊆ testCpus k → Disjoint g seen → Q (seen ∪ g) (merge g m)
  stop : ∀ seen m, Q seen m → P m

variable {P : (ℕ → Finset ℕ) → Prop} {Q : Finset ℕ → (ℕ → Finset ℕ) → Prop} {level : Level}

def entryLevel (entry : List Char) : Option Level :=
  match strsep (· == '=') entry with
  | (key, some (_ :: _)) => match parseKey key with
    | some (.level level) => some level
    | _ => none
  | _ => none

/-- An entry does nothing, or runs the groups of a key; the key is the level the entry names. -/
theorem topoSetEntry_cases (E : Env) (k : ℕ) (entry : List Char) :
    (∃ err, entryLevel entry = none ∧ ∀ d, topoSetEntry E k d entry = (err, d)) ∨
      ∃ key groups, (∀ level, entryLevel entry = some level ↔ key = .level level) ∧
        ∀ d, topoSetEntry E k d entry =
          let r := stopFold (topoSetGroup E k key) groups (resetKey k key d, ∅)
          (r.1, r.2.1) := by
  by_cases hentry : entry = []
  · subst hentry
    exact Or.inl ⟨none, rfl, fun d => by simp only [topoSetEntry, if_true]⟩
  · rcases hsep : strsep (· == '=') entry with ⟨key, _ | _ | ⟨c, groups⟩⟩
    · exact Or.inl ⟨some "expected KEY=group|group", by simp only [entryLevel, hsep], fun d => by
        simp only [topoSetEntry, if_neg hentry, hsep]⟩
    · exact Or.inl ⟨some "expected KEY=group|group", by simp only [entryLevel, hsep], fun d => by
        simp only [topoSetEntry, if_neg hentry, hsep]⟩
    · rcases hkey : parseKey key with _ | (level | _ | _)
      · exact Or.inl ⟨_, by simp only [entryLevel, hsep, hkey], fun d => by
          simp only [topoSetEntry, if_neg hentry, hsep, topoSetKey, hkey]; rfl⟩
      · exact Or.inr ⟨.level level, _, by simp [entryLevel, hsep, hkey], fun d => by
          simp only [topoSetEntry, if_neg hentry, hsep, topoSetKey, hkey]; rfl⟩
      · exact Or.inr ⟨.cap, _, by simp [entryLevel, hsep, hkey], fun d => by
          simp only [topoSetEntry, if_neg hentry, hsep, topoSetKey, hkey]; rfl⟩
      · exact Or.inl ⟨none, by simp only [entryLevel, hsep, hkey], fun d => by
          simp only [topoSetEntry, if_neg hentry, hsep, topoSetKey, hkey]⟩

/-- An entry leaves the levels it does not name as they were. -/
theorem topoSetEntry_masks_ne {entry : List Char} (d : Draft) (h : entryLevel entry ≠ some level) :
    (topoSetEntry E k d entry).2.masks level = d.masks level := by
  rcases topoSetEntry_cases E k entry with ⟨err, _, hd⟩ | ⟨key, groups, hkey, hd⟩
  · rw [hd]
  · have hne : key ≠ .level level := fun hk => h ((hkey level).mpr hk)
    rw [hd]
    refine stopFold_invariant (P := fun s : Draft × Finset ℕ => s.1.masks level = d.masks level)
      ?_ (resetKey_masks_ne hne d)
    rintro text - ⟨d', seen⟩ hs
    rcases topoSetGroup_cases E k key seen text with ⟨e, heq⟩ | ⟨group, scale, _, _, heq⟩
    · rwa [heq]
    · rw [heq]
      exact (writeGroup_masks_ne hne d' group scale).trans hs

theorem LevelRule.entry (h : LevelRule k P Q) (d : Draft) (entry : List Char)
    (hP : P (d.masks level)) : P ((topoSetEntry E k d entry).2.masks level) := by
  by_cases hlevel : entryLevel entry = some level
  · rcases topoSetEntry_cases E k entry with ⟨err, hnone, _⟩ | ⟨key, groups, hkey, hd⟩
    · rw [hnone] at hlevel
      cases hlevel
    · obtain rfl : key = .level level := (hkey level).mp hlevel
      have hstart : Q ∅ ((resetKey k (.level level) d).masks level) := by
        rw [resetKey_masks_self]
        exact h.reset _ hP
      rw [hd]
      refine h.stop _ _ (stopFold_invariant (P := fun s : Draft × Finset ℕ =>
        Q s.2 (s.1.masks level)) ?_ hstart)
      rintro text - ⟨d', seen⟩ hs
      rcases topoSetGroup_cases E k (.level level) seen text with
        ⟨e, heq⟩ | ⟨group, scale, hsub, hdis, heq⟩
      · rwa [heq]
      · rw [heq, writeGroup_masks_self]
        exact h.write seen _ group hs hsub hdis
  · rw [topoSetEntry_masks_ne d hlevel]
    exact hP

/-- What the rule keeps over one entry, a whole spec keeps, rejected or not. -/
theorem LevelRule.entries (h : LevelRule k P Q) (spec : List Char) (masks : Level → ℕ → Finset ℕ)
    (hP : P (masks level)) : P ((topoEntries E k spec masks).2.masks level) :=
  stopFold_invariant (P := fun d : Draft => P (d.masks level))
    (fun entry _ d hd => h.entry d entry hd) hP

/-- A spec leaves the levels it does not name as they were. -/
theorem topoEntries_masks_ne {spec : List Char} (masks : Level → ℕ → Finset ℕ)
    (h : ∀ entry ∈ specEntries spec, entryLevel entry ≠ some level) :
    (topoEntries E k spec masks).2.masks level = masks level :=
  stopFold_invariant (P := fun d : Draft => d.masks level = masks level)
    (fun entry hmem d hd => (topoSetEntry_masks_ne d (h entry hmem)).trans hd) rfl

/-! ### Errors and the named levels do not depend on the masks before -/

def SameAt (k : ℕ) (level : Level) (d d' : Draft) : Prop :=
  ∀ c ∈ testCpus k, d.masks level c = d'.masks level c

theorem writeGroup_caps (key : Key) {d d' : Draft} (h : d.caps = d'.caps) (group : Finset ℕ)
    (scale : ℕ) :
    (writeGroup key d group scale).caps = (writeGroup key d' group scale).caps := by
  cases key <;> simp only [writeGroup, h]

theorem resetKey_caps (key : Key) (d : Draft) : (resetKey k key d).caps = d.caps := by
  cases key <;> rfl

/-- Two runs of one entry from drafts with the same capacities report the same error and end with
the same capacities; a level they agreed on, or that the entry names, they agree on. -/
theorem topoSetEntry_same (E : Env) (k : ℕ) {d d' : Draft} (entry : List Char)
    (hcaps : d.caps = d'.caps) :
    (topoSetEntry E k d entry).1 = (topoSetEntry E k d' entry).1 ∧
      ((topoSetEntry E k d entry).1 = none →
        (topoSetEntry E k d entry).2.caps = (topoSetEntry E k d' entry).2.caps ∧
        ∀ level, entryLevel entry = some level →
          SameAt k level (topoSetEntry E k d entry).2 (topoSetEntry E k d' entry).2) := by
  rcases topoSetEntry_cases E k entry with ⟨err, hnone, hd⟩ | ⟨key, groups, hkey, hd⟩
  · rw [hd, hd]
    exact ⟨rfl, fun _ => ⟨hcaps, by simp [hnone]⟩⟩
  · let R : List (List Char) → Draft × Finset ℕ → Draft × Finset ℕ → Prop := fun _ s s' =>
      s.2 = s'.2 ∧ s.1.caps = s'.1.caps ∧ ∀ level, key = .level level → SameAt k level s.1 s'.1
    have hstep : ∀ text rest s s', R (text :: rest) s s' →
        (topoSetGroup E k key s text).1 = (topoSetGroup E k key s' text).1 ∧
          ((topoSetGroup E k key s text).1 = none →
            R rest (topoSetGroup E k key s text).2 (topoSetGroup E k key s' text).2) := by
      rintro text rest ⟨d₁, seen⟩ ⟨d₂, _⟩ ⟨rfl, hc, hsame⟩
      rcases topoSetGroup_cases E k key seen text with ⟨e, heq⟩ | ⟨group, scale, _, _, heq⟩
      · rw [heq, heq]
        exact ⟨rfl, by simp⟩
      · rw [heq, heq]
        refine ⟨rfl, fun _ => ⟨rfl, writeGroup_caps key hc group scale, ?_⟩⟩
        rintro level rfl c hct
        have hc : d₁.masks level c = d₂.masks level c := hsame level rfl c hct
        simp only [writeGroup_masks_self, merge, hc]
    have hstart : R groups (resetKey k key d, ∅) (resetKey k key d', ∅) := by
      refine ⟨rfl, by simp only [resetKey_caps, hcaps], ?_⟩
      rintro level rfl c hct
      simp only [resetKey_masks_self, singletons, if_pos hct]
    obtain ⟨herr, hend⟩ := stopFold_rel R hstep hstart
    rw [hd, hd]
    refine ⟨herr, fun hok => ?_⟩
    obtain ⟨_, hc, hsame⟩ := hend hok
    exact ⟨hc, fun level hl => hsame level ((hkey level).mp hl)⟩

/-- The same for a whole spec: the error and the capacities are the spec's own, and so are the
masks of the test CPUs at every level the spec names. -/
theorem topoEntries_same (E : Env) (k : ℕ) (spec : List Char)
    (masks masks' : Level → ℕ → Finset ℕ) :
    (topoEntries E k spec masks).1 = (topoEntries E k spec masks').1 ∧
      ((topoEntries E k spec masks).1 = none →
        (topoEntries E k spec masks).2.caps = (topoEntries E k spec masks').2.caps ∧
        ∀ level, (∃ entry ∈ specEntries spec, entryLevel entry = some level) →
          SameAt k level (topoEntries E k spec masks).2 (topoEntries E k spec masks').2) := by
  -- a level named by the spec is named by what is left, or the two drafts already agree on it
  let R : List (List Char) → Draft → Draft → Prop := fun l d d' => d.caps = d'.caps ∧
    ∀ level, (∃ entry ∈ specEntries spec, entryLevel entry = some level) →
      (∃ entry ∈ l, entryLevel entry = some level) ∨ SameAt k level d d'
  have hstep : ∀ entry l d d', R (entry :: l) d d' →
      (topoSetEntry E k d entry).1 = (topoSetEntry E k d' entry).1 ∧
        ((topoSetEntry E k d entry).1 = none →
          R l (topoSetEntry E k d entry).2 (topoSetEntry E k d' entry).2) := by
    rintro entry l d d' ⟨hcaps, hlevels⟩
    obtain ⟨herr, hend⟩ := topoSetEntry_same E k entry hcaps
    refine ⟨herr, fun hok => ?_⟩
    obtain ⟨hc, hsame⟩ := hend hok
    refine ⟨hc, fun level hnamed => ?_⟩
    by_cases hentry : entryLevel entry = some level
    · exact Or.inr (hsame level hentry)
    · rcases hlevels level hnamed with ⟨e, _ | ⟨_, hmem⟩, he⟩ | hagree
      · exact absurd he hentry
      · exact Or.inl ⟨e, hmem, he⟩
      · refine Or.inr fun c hct => ?_
        rw [topoSetEntry_masks_ne d hentry, topoSetEntry_masks_ne d' hentry]
        exact hagree c hct
  have hstart : R (specEntries spec) ⟨masks, fun _ => schedCapacityScale⟩
      ⟨masks', fun _ => schedCapacityScale⟩ := ⟨rfl, fun level h => Or.inl h⟩
  obtain ⟨herr, hend⟩ := stopFold_rel R hstep hstart
  refine ⟨herr, fun hok => ?_⟩
  obtain ⟨hc, hlevels⟩ := hend hok
  refine ⟨hc, fun level hnamed => ?_⟩
  rcases hlevels level hnamed with ⟨e, hmem, _⟩ | hagree
  · cases hmem
  · exact hagree

end KStep.Topology
