import KStep.RunProgram
import KStep.Findings
import KStep.Coverage
import KStep.FuzzPanics

/-!
# The executor

One test case is decoded into a program, the program is run on the buggy kernel, and a candidate is
run on the fixed one. What the executor saves are the programs that do not come to their end and
those that warn where the fixed kernel is shown to be silent, under numbers of their own.
-/

namespace KStep.Executor

open Fuzz RunProgram Findings Driver Runs

inductive ExitKind
  | ok | crash | timeout
  deriving DecidableEq, Repr

/-- How a kernel does on a program: the session and its console, the answer to each line, and the
coverage map, where the kernel has one. -/
structure Kernel where
  world : World
  answer : ℕ → Option Reply
  coverage : Option (Vector UInt8 Coverage.covSize)

def Kernel.exchanges (k : Kernel) (lines : List Line) : List Exchange :=
  lines.zipIdx.map fun line => ⟨line.1, k.answer line.2⟩

/-- One call of `run_target`: the input, how the two kernels do, the console's log as `fs::copy`
finds it, and the files that can be written. -/
structure TestCase where
  bytes : List UInt8
  buggy : Kernel
  fixed : Kernel
  kernelLog : List Char
  done : Ext → Bool

structure State where
  work : Work
  map : Vector UInt8 Coverage.covSize
  exits : List ExitKind

structure Config where
  bug : Bug
  sized : bug.Sized
  vetted : Bool
  client : ℕ

variable (render : Object → List Char)

def Kernel.outcome (k : Kernel) (lines : List Line) : Outcome × List Char :=
  runProgram render k.world (k.exchanges lines)

def confirmedOnFixed (vetted : Bool) (fixed : Kernel) (lines : List Line) :
    Except (List Char) (List Char) :=
  if vetted then
    match (fixed.outcome render lines).1 with
    | .ok => .ok "fixed kernel: silent".toList
    | .warn w => .error ("fixed kernel warns too: ".toList ++ w)
    | .timeout t => .error ("fixed kernel: ".toList ++ t)
  else .ok "not vetted: no fixed build".toList

def Config.program (c : Config) (t : TestCase) : List Line := (decode t.bytes c.bug).map Prod.fst

/-- The coverage map after `run_program`: it is read where the program comes to its end. -/
def mapAfter (c : Config) (t : TestCase) : Vector UInt8 Coverage.covSize :=
  match (t.buggy.outcome render (c.program t)).1 with
  | .timeout _ => Vector.replicate Coverage.covSize 0
  | _ => t.buggy.coverage.getD (Vector.replicate Coverage.covSize 0)

def save (c : Config) (t : TestCase) (why : List Char) (s : State) : Option Work :=
  Findings.step s.work (.save c.client
    ⟨c.program t, (t.buggy.outcome render (c.program t)).2, why, t.kernelLog⟩ t.done)

def runTarget (c : Config) (s : State) (t : TestCase) : Option State :=
  let s := { s with map := mapAfter render c t }
  match (t.buggy.outcome render (c.program t)).1 with
  | .ok => some { s with exits := s.exits ++ [.ok] }
  | .warn what => match confirmedOnFixed render c.vetted t.fixed (c.program t) with
    | .ok how => (save render c t (what ++ " [".toList ++ how ++ [']']) s).map fun work =>
        { s with work := work, exits := s.exits ++ [.crash] }
    | .error _ => some { s with exits := s.exits ++ [.ok] }
  | .timeout why => (save render c t ("timeout: ".toList ++ why) s).map fun work =>
      { s with work := work, exits := s.exits ++ [.timeout] }

def verdict (c : Config) (t : TestCase) : ExitKind × Option (List Char) :=
  match (t.buggy.outcome render (c.program t)).1 with
  | .ok => (.ok, none)
  | .warn what => match confirmedOnFixed render c.vetted t.fixed (c.program t) with
    | .ok how => (.crash, some (what ++ " [".toList ++ how ++ [']']))
    | .error _ => (.ok, none)
  | .timeout why => (.timeout, some ("timeout: ".toList ++ why))

def findingOf (c : Config) (t : TestCase) : Option Finding :=
  (verdict render c t).2.map fun why =>
    ⟨c.program t, (t.buggy.outcome render (c.program t)).2, why, t.kernelLog⟩

def Kernel.Silent (k : Kernel) (lines : List Line) : Prop :=
  Completed k.world (k.exchanges lines) ∧ ¬ Noticed k.world (k.exchanges lines)

def found (c : Config) (ts : List TestCase) : List (Finding × (Ext → Bool)) :=
  ts.filterMap fun t => (findingOf render c t).map fun f => (f, t.done)

variable {c : Config} {s : State} {t : TestCase} {n : ℕ} {ts : List TestCase}

theorem outcome_cases (k : Kernel) (lines : List Line) :
    ((∃ why, (k.outcome render lines).1 = .timeout why) ∧
        ¬ Completed k.world (k.exchanges lines)) ∨
      ((∃ what, (k.outcome render lines).1 = .warn what) ∧
        Completed k.world (k.exchanges lines) ∧ Noticed k.world (k.exchanges lines)) ∨
      ((k.outcome render lines).1 = .ok ∧ k.Silent lines) := by
  by_cases h : Completed k.world (k.exchanges lines)
  · rcases runProgram_completed render h with ⟨hwarn, hseen⟩ | ⟨hok, hseen⟩
    · exact Or.inr (Or.inl ⟨hwarn, h, hseen⟩)
    · exact Or.inr (Or.inr ⟨hok, h, hseen⟩)
  · exact Or.inl ⟨runProgram_cut_short render h, h⟩

/-- A candidate is confirmed by a fixed kernel that is silent, or for want of one. -/
theorem confirmed_iff (vetted : Bool) (fixed : Kernel) (lines : List Line) :
    (∃ how, confirmedOnFixed render vetted fixed lines = .ok how) ↔
      (vetted = true → fixed.Silent lines) := by
  rw [confirmedOnFixed]
  cases vetted with
  | false => exact iff_of_true ⟨_, rfl⟩ nofun
  | true =>
      rw [if_pos rfl]
      rcases outcome_cases render fixed lines with ⟨⟨why, h⟩, hnot⟩ |
        ⟨⟨what, h⟩, -, hseen⟩ | ⟨h, hsilent⟩
      · rw [h]
        exact iff_of_false (fun ⟨how, hhow⟩ => by cases hhow) fun hs => hnot (hs rfl).1
      · rw [h]
        exact iff_of_false (fun ⟨how, hhow⟩ => by cases hhow) fun hs => (hs rfl).2 hseen
      · rw [h]
        exact iff_of_true ⟨_, rfl⟩ fun _ => hsilent

/-- What an exit says of the two runs, and that everything but an `ok` is saved. -/
structure Says (c : Config) (t : TestCase) (v : ExitKind × Option (List Char)) : Prop where
  timeout : v.1 = .timeout ↔ ¬ Completed t.buggy.world (t.buggy.exchanges (c.program t))
  crash : v.1 = .crash ↔ (Completed t.buggy.world (t.buggy.exchanges (c.program t)) ∧
    Noticed t.buggy.world (t.buggy.exchanges (c.program t))) ∧
    (c.vetted = true → t.fixed.Silent (c.program t))
  saved : v.2.isSome ↔ v.1 ≠ .ok

theorem verdict_says (c : Config) (t : TestCase) : Says c t (verdict render c t) := by
  have hfixed := confirmed_iff render c.vetted t.fixed (c.program t)
  rw [verdict]
  rcases outcome_cases render t.buggy (c.program t) with ⟨⟨why, h⟩, hnot⟩ |
    ⟨⟨what, h⟩, hdone, hseen⟩ | ⟨h, hdone, hseen⟩
  · rw [h]
    refine ⟨iff_of_true rfl hnot, iff_of_false nofun fun hc => hnot hc.1.1, iff_of_true rfl nofun⟩
  · rw [h]
    rcases hconf : confirmedOnFixed render c.vetted t.fixed (c.program t) with e | how
    · have hnot : ¬ (c.vetted = true → t.fixed.Silent (c.program t)) := by
        rw [← hfixed, hconf]
        rintro ⟨how, hhow⟩
        cases hhow
      refine ⟨iff_of_false nofun (not_not.mpr hdone), iff_of_false nofun fun hc => hnot hc.2, ?_⟩
      exact iff_of_false nofun (not_not.mpr rfl)
    · refine ⟨iff_of_false nofun (not_not.mpr hdone), ?_, iff_of_true rfl nofun⟩
      exact iff_of_true rfl ⟨⟨hdone, hseen⟩, hfixed.mp ⟨how, hconf⟩⟩
  · rw [h]
    refine ⟨iff_of_false nofun (not_not.mpr hdone), iff_of_false nofun fun hc => hseen hc.1.2, ?_⟩
    exact iff_of_false nofun (not_not.mpr rfl)

def workAfter (c : Config) (t : TestCase) (n : ℕ) (w : Work) : Work :=
  match findingOf render c t with
  | none => w
  | some f => saveFinding w c.client n f t.done

theorem runTarget_eq (h : s.work.nfindings c.client = some n) :
    runTarget render c s t = some
      ⟨workAfter render c t n s.work, mapAfter render c t, s.exits ++ [(verdict render c t).1]⟩ := by
  have hsave (why : List Char) : save render c t why { s with map := mapAfter render c t } =
      some (saveFinding s.work c.client n
        ⟨c.program t, (t.buggy.outcome render (c.program t)).2, why, t.kernelLog⟩ t.done) := by
    simp only [save, Findings.step, h]
  simp only [runTarget, workAfter, findingOf, verdict]
  split
  · rfl
  · split
    · rw [hsave]
      rfl
    · rfl
  · rw [hsave]
    rfl

theorem found_cons : found render c (t :: ts) =
    ((findingOf render c t).map fun f => (f, t.done)).toList ++ found render c ts := by
  rw [found, List.filterMap_cons]
  rcases findingOf render c t with _ | f <;> rfl

/-- A client's findings are under the numbers behind those it has given, in the order of the test
cases, and nothing else changes. -/
theorem run_saves (h : s.work.nfindings c.client = some n) :
    ∃ s', run (runTarget render c) s ts = some s' ∧
      s'.exits = s.exits ++ ts.map (fun t => (verdict render c t).1) ∧
      s'.map = (ts.getLast?.map (mapAfter render c)).getD s.map ∧
      s'.work.nfindings c.client = some (n + (found render c ts).length) ∧
      (∀ i f done, (found render c ts)[i]? = some (f, done) → ∀ ext, done ext = true →
        s'.work.files ⟨c.client, fileName (n + i + 1)⟩ ext = some (f.file ext)) ∧
      ∀ b, (∀ i < (found render c ts).length, b ≠ ⟨c.client, fileName (n + i + 1)⟩) →
        s'.work.files b = s.work.files b := by
  induction ts generalizing s n with
  | nil =>
      refine ⟨s, rfl, by rw [List.map_nil, List.append_nil], rfl, h, ?_, fun _ _ => rfl⟩
      intro i f done hget
      cases hget
  | cons t ts ih =>
      have hmap (map : Vector UInt8 Coverage.covSize) :
          (ts.getLast?.map (mapAfter render c)).getD (mapAfter render c t) =
            ((t :: ts).getLast?.map (mapAfter render c)).getD map := by
        rw [List.getLast?_cons]
        rcases ts.getLast? with _ | t' <;> rfl
      simp only [run, runTarget_eq render h]
      rcases hfinding : findingOf render c t with _ | f
      · have hwork : workAfter render c t n s.work = s.work := by rw [workAfter, hfinding]
        have hfound : found render c (t :: ts) = found render c ts := by
          rw [found_cons, hfinding]
          rfl
        rw [hwork, hfound]
        obtain ⟨s', hrun, hexits, hlast, hrest⟩ := @ih
          ⟨s.work, mapAfter render c t, s.exits ++ [(verdict render c t).1]⟩ n h
        refine ⟨s', hrun, ?_, hlast.trans (hmap s.map), hrest⟩
        rw [hexits, List.map_cons, List.append_assoc]
        rfl
      · have hwork : workAfter render c t n s.work = saveFinding s.work c.client n f t.done := by
          rw [workAfter, hfinding]
        have hfound : found render c (t :: ts) = (f, t.done) :: found render c ts := by
          rw [found_cons, hfinding]
          rfl
        rw [hwork, hfound]
        obtain ⟨s', hrun, hexits, hlast, hcount, hfiles, hsame⟩ := @ih
          ⟨saveFinding s.work c.client n f t.done, mapAfter render c t,
            s.exits ++ [(verdict render c t).1]⟩ (n + 1)
          (by rw [saveFinding_nfindings, Function.update_self])
        refine ⟨s', hrun, ?_, hlast.trans (hmap s.map), ?_, ?_, ?_⟩
        · rw [hexits, List.map_cons, List.append_assoc]
          rfl
        · rw [hcount, List.length_cons, Nat.add_right_comm, Nat.add_assoc]
        · intro i f' done hget ext hdone
          rcases i with _ | i
          · cases hget
            -- the later findings have other names
            rw [hsame]
            · exact if_pos ⟨rfl, hdone⟩
            · intro j hj heq
              have := fileName_injective (congrArg Base.name heq)
              omega
          · rw [List.getElem?_cons_succ] at hget
            rw [show n + (i + 1) + 1 = n + 1 + i + 1 by omega]
            exact hfiles i f' done hget ext hdone
        · intro b hb
          rw [hsame b]
          · funext ext
            refine if_neg fun hmine => hb 0 (Nat.zero_lt_succ _) ?_
            rw [hmine.1]
          · intro i hi
            rw [show n + 1 + i + 1 = n + (i + 1) + 1 by omega]
            exact hb (i + 1) (Nat.succ_lt_succ hi)

/-- The exits and the findings of an executor, over any test cases. An exit is a timeout where the
program does not come to its end, and a crash where it does, something was noticed and the fixed
kernel, if there is one, is silent on it; the others are saved nowhere. The findings are in the
executor's directory under the numbers from 1 on, each as it was found, and the map is the last
program's. -/
theorem executor_findings (h : s.work.nfindings c.client = some 0) (hexits : s.exits = [])
    (ts : List TestCase) :
    ∃ s', run (runTarget render c) s ts = some s' ∧
      s'.exits.length = ts.length ∧
      s'.map = (ts.getLast?.map (mapAfter render c)).getD s.map ∧
      (∀ t ∈ ts, decodeChecked t.bytes c.bug = .ok (decode t.bytes c.bug) ∨
        decodeChecked t.bytes c.bug = .error .outOfMemory) ∧
      (∀ (i : ℕ) t (k : ExitKind), ts[i]? = some t → s'.exits[i]? = some k →
        (k = .timeout ↔ ¬ Completed t.buggy.world (t.buggy.exchanges (c.program t))) ∧
        (k = .crash ↔ (Completed t.buggy.world (t.buggy.exchanges (c.program t)) ∧
          Noticed t.buggy.world (t.buggy.exchanges (c.program t))) ∧
          (c.vetted = true → t.fixed.Silent (c.program t))) ∧
        ((findingOf render c t).isSome ↔ k ≠ .ok)) ∧
      (∀ i f done, (found render c ts)[i]? = some (f, done) → ∀ ext, done ext = true →
        s'.work.files ⟨c.client, fileName (i + 1)⟩ ext = some (f.file ext)) ∧
      ∀ b, (∀ i < (found render c ts).length, b ≠ ⟨c.client, fileName (i + 1)⟩) →
        s'.work.files b = s.work.files b := by
  obtain ⟨s', hrun, hkinds, hmap, -, hfiles, hsame⟩ := @run_saves render c s 0 ts h
  rw [hexits, List.nil_append] at hkinds
  simp only [Nat.zero_add] at hfiles hsame
  refine ⟨s', hrun, by rw [hkinds, List.length_map], hmap,
    fun t _ => decodeChecked_returns t.bytes c.sized, ?_, hfiles, hsame⟩
  intro i t k ht hk
  rw [hkinds, List.getElem?_map, ht] at hk
  cases hk
  obtain ⟨htimeout, hcrash, hsaved⟩ := verdict_says render c t
  refine ⟨htimeout, hcrash, ?_⟩
  rw [findingOf, Option.isSome_map]
  exact hsaved

def okReply : Reply := ⟨fun _ => none, []⟩

def answering (events : List Object) : Kernel :=
  ⟨⟨none, [], true⟩, fun i => some (if i = 0 then { okReply with events := events } else okReply), none⟩

def hanging : Kernel := ⟨⟨none, [], true⟩, fun _ => none, none⟩

def threeCases : List TestCase :=
  [⟨[], answering [warnRecord], answering [], [], fun _ => true⟩,
    ⟨[], answering [], answering [], [], fun _ => true⟩,
    ⟨[], hanging, answering [], [], fun _ => true⟩]

def oneClient : Config := ⟨⟨2, [], [], []⟩, ⟨by decide, by decide⟩, true, 0⟩

def freshClient : State :=
  ⟨{ Work.empty with nfindings := fun _ => some 0 }, Vector.replicate Coverage.covSize 0, []⟩

theorem executor_findings_threeCases :
    ∃ s', run (runTarget (fun _ => "{}".toList) oneClient) freshClient threeCases = some s' ∧
      s'.exits = [.crash, .ok, .timeout] ∧
      s'.work.files ⟨0, "0001".toList⟩ .cli =
        some "# {} [fixed kernel: silent]\ntick\ntick\ntick\n".toList ∧
      s'.work.files ⟨0, "0002".toList⟩ .cli =
        some "# timeout: no reply to `tick`\ntick\ntick\ntick\n".toList ∧
      s'.work.files ⟨0, "0003".toList⟩ .cli = none := by
  obtain ⟨s', hrun, -, -, -, -, hfiles, hsame⟩ :=
    @executor_findings (fun _ => "{}".toList) oneClient freshClient rfl rfl threeCases
  have hexits : (run (runTarget (fun _ => "{}".toList) oneClient) freshClient threeCases).map
      State.exits = some [.crash, .ok, .timeout] := by decide
  rw [hrun] at hexits
  refine ⟨s', hrun, Option.some.inj hexits, ?_, ?_, ?_⟩
  · exact hfiles 0 _ _ rfl .cli rfl
  · exact hfiles 1 _ _ rfl .cli rfl
  · rw [hsame]
    · rfl
    · intro i hi
      change i < 2 at hi
      revert i
      decide

end KStep.Executor
