import KStep.EarlyExit
import KStep.Blocks
import KStep.CString
import Mathlib.Data.Finset.Lattice.Fold
import Mathlib.Order.CompleteLattice.Finset
import Mathlib.Order.Lattice.Nat
import Mathlib.Order.Interval.Finset.Nat
import Mathlib.Data.Nat.Log

/-!
# The topology spec

A topology spec is interpreted in place. `kstepTopoSet` reads the test CPU count ahead, narrows the
masks of every level of the kernel's table to the test CPUs, and then applies the entries one by
one until one is rejected. Capacities, sibling masks and the scheduling domains follow only when
every entry was accepted. The kernel's table points at the module's own masks after the first call.

`cpulist_parse` and `kstrtoint` are the kernel's and enter through `Env`. A panic is `none`.
-/

namespace KStep.Topology

open EarlyExit CString

inductive Level
  | smt | cls | mc | pkg | node
  deriving DecidableEq, Repr

def topoLevelNames : List (List Char × Level) :=
  [("SMT".toList, .smt), ("CLS".toList, .cls), ("MC".toList, .mc), ("PKG".toList, .pkg),
    ("NODE".toList, .node)]

def getTopoLevel (name : List Char) : Option Level :=
  match topoLevelNames.lookup name with
  | some level => some level
  | none => if name = "DIE".toList then some .pkg else none

/-- The kernel the module is loaded into: its parsers, its CPUs, whether `set_cap` can set another
capacity than the full one, and whether the fair tunables follow the formula
`set_slice_scaling` checks. -/
structure Env where
  cpulistParse : List Char → Option (Finset ℕ)
  kstrtoint : List Char → Option ℤ
  numOnlineCpus : ℕ
  capSettable : Bool
  slicesByFormula : Bool

/-- The mask function of a topology level: the machine's own, or one of the module's. -/
inductive MaskFn
  | machine (mask : ℕ → Finset ℕ)
  | kstep (level : Level)

structure TopologyLevel where
  name : List Char
  mask : MaskFn

/-- `masks` is `kstep_masks`; `capacity`, `sibling`, `domains` and `sliceFactor` are what the
kernel reads, the masks of `domains` being those found in the table at the last rebuild. -/
structure Topo where
  table : List TopologyLevel
  masks : Level → ℕ → Finset ℕ
  testNcpus : ℕ
  capacity : ℕ → ℕ
  sibling : ℕ → Finset ℕ
  domains : List (ℕ → Finset ℕ)
  sliceFactor : ℕ

def kstepNrCpus : ℕ := 32
def cpuSpecLen : ℕ := 512
def schedCapacityScale : ℕ := 1024

def testCpus (k : ℕ) : Finset ℕ := Finset.Icc 1 k

def topoMask (masks : Level → ℕ → Finset ℕ) (tl : TopologyLevel) (cpu : ℕ) : Finset ℕ :=
  match tl.mask with
  | .machine mask => mask cpu
  | .kstep level => masks level cpu

theorem topoMask_machine {tl : TopologyLevel} {mask : ℕ → Finset ℕ} (h : tl.mask = .machine mask)
    (masks : Level → ℕ → Finset ℕ) : topoMask masks tl = mask := by
  funext cpu
  simp only [topoMask, h]

theorem topoMask_kstep {tl : TopologyLevel} {level : Level} (h : tl.mask = .kstep level)
    (masks : Level → ℕ → Finset ℕ) : topoMask masks tl = masks level := by
  funext cpu
  simp only [topoMask, h]

/-- One level of `topo_init`. Each CPU's mask is computed from that CPU's mask alone, so the loop
over the online CPUs is one function of the CPU. -/
def topoInitLevel (E : Env) (test : Finset ℕ) (masks : Level → ℕ → Finset ℕ) (tl : TopologyLevel)
    (level : Level) : Level → ℕ → Finset ℕ :=
  fun l cpu => if l = level ∧ cpu < E.numOnlineCpus then
    Blocks.restrict test (topoMask masks tl) cpu else masks l cpu

/-- `topo_init`: the masks and the table, level by level; an unknown level panics. -/
def topoInit (E : Env) (test : Finset ℕ) :
    List TopologyLevel → (Level → ℕ → Finset ℕ) →
      Option (List TopologyLevel × (Level → ℕ → Finset ℕ))
  | [], masks => some ([], masks)
  | tl :: table, masks => match getTopoLevel tl.name with
    | none => none
    | some level => match topoInit E test table (topoInitLevel E test masks tl level) with
      | none => none
      | some (table', masks') => some ({ tl with mask := .kstep level } :: table', masks')

theorem topoInit_cons {E : Env} {test : Finset ℕ} {tl : TopologyLevel}
    {table table' : List TopologyLevel} {masks masks' : Level → ℕ → Finset ℕ}
    (h : topoInit E test (tl :: table) masks = some (table', masks')) :
    ∃ level rest, getTopoLevel tl.name = some level ∧
      topoInit E test table (topoInitLevel E test masks tl level) = some (rest, masks') ∧
      table' = { tl with mask := .kstep level } :: rest := by
  simp only [topoInit] at h
  split at h
  · cases h
  · split at h
    · cases h
    · cases h
      exact ⟨_, _, ‹_›, ‹_›, rfl⟩

def cpumaskLast (mask : Finset ℕ) : ℕ := mask.sup id

/-- `kstep_parse_cpus` with `k` test CPUs. -/
def kstepParseCpus (E : Env) (k : ℕ) (list : List Char) : Option (Finset ℕ) :=
  match E.cpulistParse list with
  | none => none
  | some mask => if mask ≠ ∅ ∧ 0 ∉ mask ∧ cpumaskLast mask ≤ k then some mask else none

def topoParseGroup (E : Env) (k : ℕ) (list : List Char) (seen : Finset ℕ) :
    Except String (Finset ℕ) :=
  match kstepParseCpus E k list with
  | none => .error "bad cpulist: test CPUs 1..CPUS only"
  | some group =>
      if Disjoint group seen then .ok group else .error "a CPU is named twice under one key"

inductive Key
  | level (level : Level)
  | cap
  | cpus
  deriving DecidableEq

def parseKey (key : List Char) : Option Key :=
  if key = "CPUS".toList then some .cpus
  else if key = "CAP".toList then some .cap
  else (getTopoLevel key).map .level

/-- What the entries write: the masks in place, and the capacities the spec asks for. -/
structure Draft where
  masks : Level → ℕ → Finset ℕ
  caps : ℕ → ℕ

def groupScale (E : Env) (key : Key) (text : List Char) : Except String (List Char × ℕ) :=
  if key = .cap then
    match strchr ':' text with
    | none => .error "CAP groups are cpulist:scale"
    | some (list, val) => match E.kstrtoint val with
      | none => .error "capacity is not in 1..1024"
      | some scale => if scale < 1 ∨ (schedCapacityScale : ℤ) < scale
          then .error "capacity is not in 1..1024" else .ok (list, scale.toNat)
  else .ok (text, 0)

def writeGroup (key : Key) (d : Draft) (group : Finset ℕ) (scale : ℕ) : Draft :=
  match key with
  | .level level => { d with masks := fun l cpu =>
      if l = level then Blocks.merge group (d.masks l) cpu else d.masks l cpu }
  | .cap => { d with caps := fun cpu => if cpu ∈ group then scale else d.caps cpu }
  | .cpus => d

/-- One turn of the loop over a key's groups; the second component is `seen`. -/
def topoSetGroup (E : Env) (k : ℕ) (key : Key) (s : Draft × Finset ℕ) (text : List Char) :
    Option String × (Draft × Finset ℕ) :=
  match groupScale E key text with
  | .error e => (some e, s)
  | .ok (list, scale) => match topoParseGroup E k list s.2 with
    | .error e => (some e, s)
    | .ok group => (none, writeGroup key s.1 group scale, s.2 ∪ group)

/-- Before its groups a level is reset: every test CPU alone unless named. -/
def resetKey (k : ℕ) (key : Key) (d : Draft) : Draft :=
  match key with
  | .level level => { d with masks := fun l cpu =>
      if l = level then Blocks.singletons (testCpus k) (d.masks l) cpu else d.masks l cpu }
  | _ => d

def topoSetKey (E : Env) (k : ℕ) (key groups : List Char) (d : Draft) : Option String × Draft :=
  match parseKey key with
  | some .cpus => (none, d)
  | none => (some "unknown key (a level, CAP or CPUS)", d)
  | some key =>
      let (err, s) := stopFold (topoSetGroup E k key) (groups.splitOn '|') (resetKey k key d, ∅)
      (err, s.1)

def topoSetEntry (E : Env) (k : ℕ) (d : Draft) (entry : List Char) : Option String × Draft :=
  if entry = [] then (none, d)
  else match strsep (· == '=') entry with
    | (_, none) => (some "expected KEY=group|group", d)
    | (_, some []) => (some "expected KEY=group|group", d)
    | (key, some groups) => topoSetKey E k key groups d

def topoCpusEntry (E : Env) (n : ℕ) (entry : List Char) : Option ℕ :=
  if strstarts entry "CPUS=".toList then
    match E.kstrtoint (entry.drop 5) with
    | none => none
    | some k => if k < 1 ∨ (E.numOnlineCpus : ℤ) - 1 < k then none else some k.toNat
  else some n

/-- The `;`-separated entries of a spec, as far as the buffer holds it. -/
def specEntries (spec : List Char) : List (List Char) := (strscpy cpuSpecLen spec).splitOn ';'

/-- `topo_cpus`: the count a spec asks for, `none` for a malformed value. -/
def topoCpus (E : Env) (spec : List Char) : Option ℕ :=
  (specEntries spec).foldlM (topoCpusEntry E) (E.numOnlineCpus - 1)

def sliceFactor (cpus : ℕ) : ℕ := 1 + Nat.log 2 (min cpus 8)

/-- The end of an accepted call: the capacities, the sibling masks, the rebuild and the slices. -/
def topoApply (E : Env) (t : Topo) (caps : ℕ → ℕ) : Option Topo :=
  if (∃ c ∈ testCpus t.testNcpus, caps c ≠ schedCapacityScale) ∧ ¬ E.capSettable then none
  else if ¬ E.slicesByFormula then none
  else some { t with
    capacity := fun c => if c ∈ testCpus t.testNcpus then caps c else t.capacity c
    sibling := fun c => if c < E.numOnlineCpus then t.masks .smt c else t.sibling c
    domains := t.table.map (topoMask t.masks)
    sliceFactor := sliceFactor (t.testNcpus + 1) }

/-- The state a spec's entries leave behind when the count `k` and the narrowed masks are set. -/
def draftTopo (t : Topo) (k : ℕ) (table : List TopologyLevel) (d : Draft) : Topo :=
  { t with table := table, masks := d.masks, testNcpus := k }

/-- The loop of `kstep_topo_set` over the entries of a spec, from the narrowed masks. -/
def topoEntries (E : Env) (k : ℕ) (spec : List Char) (masks : Level → ℕ → Finset ℕ) :
    Option String × Draft :=
  stopFold (topoSetEntry E k) (specEntries spec) ⟨masks, fun _ => schedCapacityScale⟩

def kstepTopoSet (E : Env) (t : Topo) (spec : List Char) : Option (Option String × Topo) :=
  match topoCpus E spec with
  | none => some (some "CPUS is not in 1..N-1", t)
  | some k => match topoInit E (testCpus k) t.table t.masks with
    | none => none
    | some (table, masks) => match topoEntries E k spec masks with
      | (some e, d) => some (some e, draftTopo t k table d)
      | (none, d) => (topoApply E (draftTopo t k table d) d.caps).map fun t' => (none, t')

/-- Everything a call can do: it rejects the count and changes nothing, or it rejects an entry and
leaves the draft, or it accepts and applies the draft. -/
theorem kstepTopoSet_cases {E : Env} {t t' : Topo} {spec : List Char} {err : Option String}
    (h : kstepTopoSet E t spec = some (err, t')) :
    (topoCpus E spec = none ∧ err = some "CPUS is not in 1..N-1" ∧ t' = t) ∨
    ∃ k table masks, topoCpus E spec = some k ∧
      topoInit E (testCpus k) t.table t.masks = some (table, masks) ∧
      err = (topoEntries E k spec masks).1 ∧
      ((err ≠ none ∧ t' = draftTopo t k table (topoEntries E k spec masks).2) ∨
        (err = none ∧ topoApply E (draftTopo t k table (topoEntries E k spec masks).2)
          (topoEntries E k spec masks).2.caps = some t')) := by
  simp only [kstepTopoSet] at h
  split at h
  · cases h
    exact Or.inl ⟨‹_›, rfl, rfl⟩
  · split at h
    · cases h
    · rename_i k hk _ table masks hinit
      refine Or.inr ⟨k, table, masks, hk, hinit, ?_⟩
      split at h
      · rename_i e d hd
        cases h
        rw [hd]
        exact ⟨rfl, Or.inl ⟨by simp, rfl⟩⟩
      · rename_i d hd
        obtain ⟨t'', happly, heq⟩ := Option.map_eq_some_iff.mp h
        cases heq
        rw [hd]
        exact ⟨rfl, Or.inr ⟨rfl, happly⟩⟩

theorem topoApply_some {E : Env} {t t' : Topo} {caps : ℕ → ℕ} (h : topoApply E t caps = some t') :
    t'.table = t.table ∧ t'.masks = t.masks ∧ t'.testNcpus = t.testNcpus ∧
      t'.capacity = fun c => if c ∈ testCpus t.testNcpus then caps c else t.capacity c := by
  simp only [topoApply] at h
  split_ifs at h
  cases h
  exact ⟨rfl, rfl, rfl, rfl⟩

def CapsSettable (E : Env) (k : ℕ) (caps : ℕ → ℕ) : Prop :=
  ((∃ c ∈ testCpus k, caps c ≠ schedCapacityScale) → E.capSettable = true) ∧
    E.slicesByFormula = true

theorem topoApply_isSome_iff {E : Env} {t : Topo} {caps : ℕ → ℕ} :
    (∃ t', topoApply E t caps = some t') ↔ CapsSettable E t.testNcpus caps := by
  constructor
  · rintro ⟨t', h⟩
    simp only [topoApply] at h
    split_ifs at h with hcap hslice
    refine ⟨fun hex => ?_, by simpa using hslice⟩
    by_contra hset
    exact hcap ⟨hex, hset⟩
  · rintro ⟨hcap, hslice⟩
    rw [topoApply, if_neg fun h => h.2 (hcap h.1), if_neg fun h => h hslice]
    exact ⟨_, rfl⟩

/-- The machine's own topology: the levels of the kernel's table with their masks, and what its
CPUs report. -/
structure Machine where
  levels : List (List Char × (ℕ → Finset ℕ))
  capacity : ℕ → ℕ
  sibling : ℕ → Finset ℕ

def Machine.boot (M : Machine) (E : Env) : Topo where
  table := M.levels.map fun l => ⟨l.1, .machine l.2⟩
  masks := fun _ _ => ∅
  testNcpus := 0
  capacity := M.capacity
  sibling := M.sibling
  domains := M.levels.map Prod.snd
  sliceFactor := sliceFactor E.numOnlineCpus

def kstepCpuInit (E : Env) (t : Topo) : Option Topo :=
  if kstepNrCpus < E.numOnlineCpus then none
  else (kstepTopoSet E { t with testNcpus := E.numOnlineCpus - 1 } []).map Prod.snd

def topoRun (E : Env) : Topo → List (List Char) → Option Topo
  | t, [] => some t
  | t, spec :: specs => match kstepTopoSet E t spec with
    | none => none
    | some (_, t') => topoRun E t' specs

def Reachable (E : Env) (M : Machine) (t : Topo) : Prop :=
  ∃ t₀ specs, kstepCpuInit E (M.boot E) = some t₀ ∧ topoRun E t₀ specs = some t

/-- A machine of four CPUs sharing one cache, and a kernel that can read the list `1-2`. -/
def fourCpuEnv : Env where
  cpulistParse list := if list = "1-2".toList then some {1, 2} else none
  kstrtoint := CString.kstrtoint
  numOnlineCpus := 4
  capSettable := true
  slicesByFormula := true

def fourCpuMachine : Machine where
  levels := [("SMT".toList, fun c => {c}), ("MC".toList, fun _ => {0, 1, 2, 3})]
  capacity _ := schedCapacityScale
  sibling c := {c}

end KStep.Topology
