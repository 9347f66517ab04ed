import KStep.TopologyHistory

/-!
# The language of topology specs

A spec is a list of entries `KEY=VALUE` between semicolons; a value other than that of `CPUS` is a
list of groups between bars. This module says which specs are well formed, in terms of the entries
alone, and what its first pass makes of the `CPUS` entries.
-/

namespace KStep.Topology

open EarlyExit CString

/-- How a key is written; `DIE` is the older name of `PKG`. -/
def Key.names : Key → List (List Char)
  | .level .smt => ["SMT".toList]
  | .level .cls => ["CLS".toList]
  | .level .mc => ["MC".toList]
  | .level .pkg => ["PKG".toList, "DIE".toList]
  | .level .node => ["NODE".toList]
  | .cap => ["CAP".toList]
  | .cpus => ["CPUS".toList]

def valueFor (key : Key) (entry : List Char) : Option (List Char) :=
  match strchr '=' entry with
  | some (name, value) => if key.names.any (· = name) then some value else none
  | none => none

def valuesFor (key : Key) (spec : List Char) : List (List Char) :=
  (spec.splitOn ';').filterMap (valueFor key)

/-- The number of test CPUs: the last `CPUS`, or every CPU but the controller's. -/
def specCount (E : Env) (spec : List Char) : ℕ :=
  (valuesFor .cpus spec).getLast?.elim (E.numOnlineCpus - 1) fun value =>
    ((E.kstrtoint value).getD 0).toNat

def CpusValue (E : Env) (value : List Char) : Prop :=
  ∃ n, E.kstrtoint value = some n ∧ 1 ≤ n ∧ n ≤ (E.numOnlineCpus : ℤ) - 1

def CpuGroup (E : Env) (k : ℕ) (list : List Char) (group : Finset ℕ) : Prop :=
  E.cpulistParse list = some group ∧ group ≠ ∅ ∧ group ⊆ testCpus k

def CapGroup (E : Env) (k : ℕ) (text : List Char) (group : Finset ℕ) (scale : ℕ) : Prop :=
  ∃ list val, text = list ++ ':' :: val ∧ CpuGroup E k list group ∧
    E.kstrtoint val = some (scale : ℤ) ∧ 1 ≤ scale ∧ scale ≤ schedCapacityScale

def KeyGroup (E : Env) (k : ℕ) (key : Key) (text : List Char) (g : Finset ℕ × ℕ) : Prop :=
  if key = .cap then CapGroup E k text g.1 g.2 else CpuGroup E k text g.1 ∧ g.2 = 0

/-- The groups of a value: no CPU is named twice. -/
def Groups (E : Env) (k : ℕ) (key : Key) (value : List Char) (groups : List (Finset ℕ × ℕ)) :
    Prop :=
  List.Forall₂ (KeyGroup E k key) (value.splitOn '|') groups ∧
    (groups.map Prod.fst).Pairwise Disjoint

def ValueOk (E : Env) (k : ℕ) (key : Key) (value : List Char) : Prop :=
  if key = .cpus then CpusValue E value else ∃ groups, Groups E k key value groups

/-- Every nonempty entry is `KEY=VALUE` with a value that its key can have. -/
def WellFormed (E : Env) (spec : List Char) : Prop :=
  ∀ entry ∈ spec.splitOn ';', entry ≠ [] → ∃ key value, valueFor key entry = some value ∧
    value ≠ [] ∧ ValueOk E (specCount E spec) key value

/-- No group under `CAP` is `cpulist:scale` with a colon in the cpulist itself, as the kernel's
strided ranges have one. -/
def PlainCaps (E : Env) (spec : List Char) : Prop :=
  ∀ value ∈ valuesFor .cap spec, ∀ text ∈ value.splitOn '|', ∀ list val,
    text = list ++ ':' :: val → E.cpulistParse list ≠ none → ':' ∉ list

variable {E : Env} {k : ℕ} {key key' : Key} {spec entry name value text : List Char}

/-! ### Keys and values -/

theorem getTopoLevel_eq_some {level : Level} (h : getTopoLevel name = some level) :
    name ∈ (Key.level level).names := by
  unfold getTopoLevel at h
  split at h
  next l hl =>
    cases h
    obtain ⟨before, after, heq, -⟩ := List.lookup_eq_some_iff.mp hl
    have hmem : (name, level) ∈ topoLevelNames := by
      rw [heq]
      exact List.mem_append_right _ List.mem_cons_self
    simp only [topoLevelNames, List.mem_cons, Prod.mk.injEq, List.not_mem_nil, or_false] at hmem
    rcases hmem with ⟨rfl, rfl⟩ | ⟨rfl, rfl⟩ | ⟨rfl, rfl⟩ | ⟨rfl, rfl⟩ | ⟨rfl, rfl⟩
    all_goals exact List.mem_cons_self
  next =>
    split_ifs at h with hdie
    cases h
    rw [hdie]
    exact List.mem_cons_of_mem _ List.mem_cons_self

/-- Every way to write a key is read as that key, and has no `=` in it. -/
theorem names_spec (h : name ∈ key.names) : parseKey name = some key ∧ '=' ∉ name := by
  have hall : key.names.all (fun name =>
      decide (parseKey name = some key) && !name.contains '=') = true := by
    rcases key with (_ | _ | _ | _ | _) | _ | _
    all_goals rfl
  have hname := List.all_eq_true.mp hall name h
  simpa using hname

theorem parseKey_eq_some_iff : parseKey name = some key ↔ name ∈ key.names := by
  constructor
  · intro h
    unfold parseKey at h
    split_ifs at h with hcpus hcap
    · cases h
      exact List.mem_singleton.mpr hcpus
    · cases h
      exact List.mem_singleton.mpr hcap
    · obtain ⟨level, hlevel, rfl⟩ := Option.map_eq_some_iff.mp h
      exact getTopoLevel_eq_some hlevel
  · intro h
    exact (names_spec h).1

theorem names_clean (h : name ∈ key.names) : '=' ∉ name := (names_spec h).2

theorem any_names_iff : key.names.any (· = name) = true ↔ name ∈ key.names := by
  simp [List.any_eq_true]

theorem valueFor_eq_some_iff :
    valueFor key entry = some value ↔ ∃ name ∈ key.names, entry = name ++ '=' :: value := by
  constructor
  · intro h
    unfold valueFor at h
    split at h
    next name v hcut =>
      split_ifs at h with hname
      cases h
      exact ⟨name, any_names_iff.mp hname, (strchr_eq_some_iff.mp hcut).2⟩
    next => cases h
  · rintro ⟨name, hname, rfl⟩
    have hcut := strchr_eq_some_iff.mpr
      ⟨names_clean hname, rfl (a := name ++ '=' :: value)⟩
    simp only [valueFor, hcut, if_pos (any_names_iff.mpr hname)]

/-- An entry has at most one key. -/
theorem valueFor_unique {value' : List Char} (h : valueFor key entry = some value)
    (h' : valueFor key' entry = some value') : key = key' ∧ value = value' := by
  obtain ⟨name, hname, heq⟩ := valueFor_eq_some_iff.mp h
  obtain ⟨name', hname', heq'⟩ := valueFor_eq_some_iff.mp h'
  have hcut := strchr_eq_some_iff.mpr ⟨names_clean hname, heq⟩
  rw [strchr_eq_some_iff.mpr ⟨names_clean hname', heq'⟩] at hcut
  cases hcut
  rw [← parseKey_eq_some_iff] at hname hname'
  exact ⟨Option.some.inj (hname.symm.trans hname'), rfl⟩

/-! ### The first pass -/

theorem valueFor_cpus_iff :
    valueFor .cpus entry = some value ↔ entry = "CPUS=".toList ++ value := by
  rw [valueFor_eq_some_iff]
  constructor
  · rintro ⟨name, hname, rfl⟩
    rw [List.mem_singleton.mp hname]
    rfl
  · rintro rfl
    exact ⟨_, List.mem_singleton.mpr rfl, rfl⟩

theorem topoCpusEntry_other {n : ℕ} (h : valueFor .cpus entry = none) :
    topoCpusEntry E n entry = some n := by
  have hstart : ¬ strstarts entry "CPUS=".toList = true := by
    intro hstart
    obtain ⟨value, rfl⟩ := List.isPrefixOf_iff_prefix.mp hstart
    rw [valueFor_cpus_iff.mpr rfl] at h
    cases h
  rw [topoCpusEntry, if_neg hstart]

theorem topoCpusEntry_value {n : ℕ} (h : valueFor .cpus entry = some value) :
    topoCpusEntry E n entry = some k ↔
      CpusValue E value ∧ k = ((E.kstrtoint value).getD 0).toNat := by
  obtain rfl := valueFor_cpus_iff.mp h
  have hstart : strstarts ("CPUS=".toList ++ value) "CPUS=".toList = true :=
    List.isPrefixOf_iff_prefix.mpr (List.prefix_append _ _)
  have hdrop : ("CPUS=".toList ++ value).drop 5 = value := rfl
  rw [topoCpusEntry, if_pos hstart, hdrop]
  cases hint : E.kstrtoint value with
  | none =>
      simp [CpusValue, hint]
  | some n =>
      simp only [CpusValue, hint, Option.some.injEq, exists_eq_left', Option.getD_some]
      by_cases hrange : n < 1 ∨ (E.numOnlineCpus : ℤ) - 1 < n
      · rw [if_pos hrange]
        simp only [reduceCtorEq, false_iff]
        omega
      · rw [if_neg hrange]
        simp only [Option.some.injEq]
        omega

theorem topoCpus_fold (entries : List (List Char)) (n : ℕ) :
    entries.foldlM (topoCpusEntry E) n = some k ↔
      (∀ value ∈ entries.filterMap (valueFor .cpus), CpusValue E value) ∧
      k = (entries.filterMap (valueFor .cpus)).getLast?.elim n fun value =>
        ((E.kstrtoint value).getD 0).toNat := by
  induction entries generalizing n with
  | nil => simp [eq_comm]
  | cons entry entries ih =>
      rw [List.foldlM_cons, Option.bind_eq_bind, Option.bind_eq_some_iff]
      cases hvalue : valueFor .cpus entry with
      | none =>
          rw [topoCpusEntry_other hvalue, List.filterMap_cons_none hvalue, ← ih]
          simp
      | some value =>
          rw [List.filterMap_cons_some hvalue, List.forall_mem_cons, List.getLast?_cons]
          simp only [topoCpusEntry_value hvalue, ih]
          constructor
          · rintro ⟨m, ⟨hok, rfl⟩, hall, hk⟩
            refine ⟨⟨hok, hall⟩, hk.trans ?_⟩
            cases (entries.filterMap (valueFor .cpus)).getLast? <;> rfl
          · rintro ⟨⟨hok, hall⟩, hk⟩
            refine ⟨_, ⟨hok, rfl⟩, hall, hk.trans ?_⟩
            cases (entries.filterMap (valueFor .cpus)).getLast? <;> rfl

theorem specEntries_eq (hlen : spec.length < cpuSpecLen) : specEntries spec = spec.splitOn ';' := by
  rw [specEntries, strscpy, List.take_of_length_le (Nat.le_sub_one_of_lt hlen)]

/-- The first pass accepts the values of `CPUS` and reads the count. -/
theorem topoCpus_eq_some_iff (hlen : spec.length < cpuSpecLen) :
    topoCpus E spec = some k ↔
      (∀ value ∈ valuesFor .cpus spec, CpusValue E value) ∧ k = specCount E spec := by
  rw [topoCpus, specEntries_eq hlen, topoCpus_fold]
  rfl

end KStep.Topology
