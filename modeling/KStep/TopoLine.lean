import KStep.ReadLine
import KStep.Driver

/-!
# The line `cpu-topo <spec>`

A spec reaches `kstep_topo_set` from a driver as it is, and from the host as a line: through the
reader, which cuts the line to its buffer, the trimming of the line, its verb and the trimming of
the argument. What comes out is the spec when the line fits, and nothing when the spec is empty.
-/

namespace KStep.Driver

open FlatJson Cli CString KStep.Topology Trim Runs Lines Channel

def asciiBytes (s : String) : List UInt8 := s.toList.map fun c => UInt8.ofNat c.toNat

/-- The line that sends a spec, without its newline. -/
def topoLine (spec : List UInt8) : List UInt8 := asciiBytes "cpu-topo " ++ spec

def topoUsage : String :=
  "usage: cpu-topo KEY=group|group[;...] (levels, CAP and CPUS=K, see cpu.c)"

def topoAfter (a : Answers) : Command → Option Topo
  | .cpuTopo spec => (kstepTopoSet a.env a.topo spec).map Prod.snd
  | _ => some a.topo

/-- What `run` does with a line that `kstep_io_readline` returns: the fields of the reply, when
there is one, and the topology after it. -/
def lineOutcome (v : CliView) (a : Answers) (bytes : List UInt8) :
    Option (Option (List Field) × Topo) :=
  match commandLine bytes with
  | none => some (none, a.topo)
  | some line => match replyFields v a line, execute v line with
    | none, _ => none
    | some fields, .error _ => some (some fields, a.topo)
    | some fields, .ok c => (topoAfter a c).map fun topo => (some fields, topo)

/-- The same of a driver that calls `kstep_topo_set` and reports its error. -/
def callOutcome (a : Answers) (spec : List Char) : Option (Option (List Field) × Topo) :=
  (kstepTopoSet a.env a.topo spec).map fun r => (some ((r.1.map replyError).getD []), r.2)

structure SpecText (spec : List UInt8) : Prop where
  noNul : 0 ∉ spec
  head : (cString spec).head?.any isspace = false
  last : (cString spec).getLast?.any isspace = false

variable {spec bytes : List UInt8} {v : CliView} {a : Answers}

/-- A line is executed as it was sent, as far as the buffer holds it. -/
theorem commandLine_take (bytes : List UInt8) :
    commandLine (bytes.take (lineMax - 1)) = commandLine bytes := by
  rw [commandLine, commandLine, List.take_take, Nat.min_self]

theorem cString_of_noNul (h : 0 ∉ bytes) :
    cString bytes = bytes.map fun b => Char.ofNat b.toNat := by
  have hall : ∀ b ∈ bytes, decide (b ≠ 0) = true := by
    intro b hb
    rw [decide_eq_true_eq]
    rintro rfl
    exact h hb
  rw [cString, List.takeWhile_eq_self_iff.mpr hall]

theorem cString_topoLine (h : 0 ∉ spec) :
    cString (topoLine spec) = "cpu-topo".toList ++ ' ' :: cString spec := by
  have hverb : 0 ∉ asciiBytes "cpu-topo " := by decide
  have hline : 0 ∉ topoLine spec := by
    rw [topoLine, List.mem_append, not_or]
    exact ⟨hverb, h⟩
  rw [cString_of_noNul hline, cString_of_noNul h, topoLine, List.map_append]
  rfl

/-- A text without a blank at either end is kept by `strim`. -/
theorem strim_eq_self {s : List Char} (hhead : s.head?.any isspace = false)
    (hlast : s.getLast?.any isspace = false) : strim s = s := by
  rcases s with _ | ⟨c, s⟩
  · rfl
  · have hc : isspace c = false := hhead
    rw [strim, trimBy, List.dropWhile_cons_of_neg (by simp [hc]), List.rdropWhile_eq_self_iff]
    intro hne
    rw [List.getLast?_eq_getLast_of_ne_nil hne, Option.any_some] at hlast
    simp [hlast]

theorem cString_ne_nil (hspec : SpecText spec) (hne : spec ≠ []) : cString spec ≠ [] := by
  rw [cString_of_noNul hspec.noNul]
  simpa using hne

theorem commandLine_topoLine (hspec : SpecText spec) (hne : spec ≠ [])
    (hlen : (topoLine spec).length < lineMax) :
    commandLine (topoLine spec) = some ("cpu-topo".toList ++ ' ' :: cString spec) := by
  have htake : (topoLine spec).take (lineMax - 1) = topoLine spec :=
    List.take_of_length_le (by omega)
  have hstrim : strim ("cpu-topo".toList ++ ' ' :: cString spec) =
      "cpu-topo".toList ++ ' ' :: cString spec := by
    refine strim_eq_self rfl ?_
    have hlast := hspec.last
    rw [List.getLast?_eq_getLast_of_ne_nil (cString_ne_nil hspec hne)] at hlast
    rw [List.getLast?_append_cons, List.getLast?_cons,
      List.getLast?_eq_getLast_of_ne_nil (cString_ne_nil hspec hne)]
    exact hlast
  rw [commandLine, htake, cString_topoLine hspec.noNul, hstrim]
  rfl

theorem lookup_cpuTopo : lookup (commands v) "cpu-topo".toList = some cmdCpuTopo :=
  lookup_commands (List.mem_of_getElem? (i := 2) rfl)

theorem execute_topoLine (hspec : SpecText spec) (hne : spec ≠ []) :
    execute v ("cpu-topo".toList ++ ' ' :: cString spec) = .ok (.cpuTopo (cString spec)) := by
  have hsep : strsep isBlank ("cpu-topo".toList ++ ' ' :: cString spec) =
      ("cpu-topo".toList, some (cString spec)) := rfl
  have harg : lineArg (some (cString spec)) = some (cString spec) := by
    rw [lineArg, Option.map_some, strim_eq_self hspec.head hspec.last]
    split
    · rename_i hnil
      exact absurd (Option.some.inj hnil) (cString_ne_nil hspec hne)
    · rfl
  simp only [execute, hsep, lookup_cpuTopo, harg]
  rfl

theorem lineOutcome_topoLine (hspec : SpecText spec) (hne : spec ≠ [])
    (hlen : (topoLine spec).length < lineMax) :
    lineOutcome v a (topoLine spec) = callOutcome a (cString spec) := by
  have hline := commandLine_topoLine hspec hne hlen
  have hexecute := execute_topoLine (v := v) hspec hne
  simp only [lineOutcome, hline, replyFields, hexecute, replyCommand, topoAfter, callOutcome]
  rcases hset : kstepTopoSet a.env a.topo (cString spec) with _ | r
  · rfl
  · simp only [Option.map_some, hset]

/-- A line that does not fit runs as the first 118 bytes of its spec. -/
theorem lineOutcome_cut (hspec : SpecText (spec.take 118)) (hne : spec ≠ []) :
    lineOutcome v a (topoLine spec) = callOutcome a (cString (spec.take 118)) := by
  have hcut : (topoLine spec).take (lineMax - 1) = topoLine (spec.take 118) := by
    rw [topoLine, topoLine, List.take_append, List.take_of_length_le (by decide)]
    rfl
  have hlen : (topoLine (spec.take 118)).length < lineMax := by
    rw [← hcut, List.length_take]
    exact Nat.lt_of_le_of_lt (Nat.min_le_left _ _) (by decide)
  have hne' : spec.take 118 ≠ [] := by simpa using hne
  rw [← lineOutcome_topoLine hspec hne' hlen, ← hcut, lineOutcome, lineOutcome, commandLine_take]

theorem lineOutcome_nil :
    lineOutcome v a (topoLine []) = some (some (replyError topoUsage), a.topo) := by
  have hline : commandLine (topoLine []) = some "cpu-topo".toList := by decide
  have hexecute : execute v "cpu-topo".toList = .error topoUsage := by
    have hsep : strsep isBlank "cpu-topo".toList = ("cpu-topo".toList, none) := rfl
    simp only [execute, hsep, lookup_cpuTopo]
    rfl
  simp only [lineOutcome, hline, replyFields, hexecute]

/-- A line `cpu-topo <spec>` that fits the reader's buffer does what a driver that calls
`kstep_topo_set` with the spec does, from any state and however its bytes arrive. Without a spec it
is answered with the usage and changes nothing. -/
theorem topo_line_agrees (l : List Channel.Label) (s : Io) (i : ℕ) (line spec : List UInt8)
    (v : CliView) (a : Answers) (hrun : run Channel.step Io.boot l = some s)
    (hpanic : s.panicked = false)
    (hcall : s.returned[i]? = some (lineMax, line))
    (hline : (lines newline (delivered l))[i]? = some (topoLine spec)) (hspec : SpecText spec) :
    (spec = [] → lineOutcome v a line = some (some (replyError topoUsage), a.topo)) ∧
    (spec ≠ [] → (topoLine spec).length < lineMax →
      lineOutcome v a line = callOutcome a (cString spec)) := by
  obtain ⟨ws, w, hr, -⟩ := run_reading hrun hpanic reading_boot
  obtain ⟨sent, hsent, hcut⟩ := returned_line hr hcall
  rw [List.nil_append] at hsent
  obtain rfl := Option.some.inj (hsent.symm.trans hline)
  have houtcome : lineOutcome v a line = lineOutcome v a (topoLine spec) := by
    rw [lineOutcome, lineOutcome, hcut, commandLine_take]
  rw [houtcome]
  refine ⟨?_, fun hne hlen => lineOutcome_topoLine hspec hne hlen⟩
  rintro rfl
  exact lineOutcome_nil

/-- `cpu-topo CPUS=2`, received in one buffer and read byte by byte. -/
def twoCpus : List UInt8 := asciiBytes "CPUS=2"

def twoCpusRead : List Channel.Label :=
  [.call lineMax, .rx [topoLine twoCpus ++ [newline]]] ++
    (List.replicate 16 [Channel.Label.look, Channel.Label.take]).flatten

theorem topo_line_agrees_two_cpus : ∃ s, run Channel.step Io.boot twoCpusRead = some s ∧
    s.returned[0]? = some (lineMax, topoLine twoCpus) ∧
    lineOutcome plainView fourCpuAnswers (topoLine twoCpus) =
      callOutcome fourCpuAnswers "CPUS=2".toList :=
  ⟨_, rfl, rfl, (topo_line_agrees twoCpusRead _ 0 (topoLine twoCpus) twoCpus plainView
    fourCpuAnswers rfl rfl rfl (by decide) ⟨by decide, by decide, by decide⟩).2 (by decide)
    (by decide)⟩

/-- A spec of 119 bytes that asks for twelve CPUs, and for one when its last byte is cut. -/
def longSpec : List UInt8 := List.replicate 112 59 ++ asciiBytes "CPUS=12"

theorem cut_or_empty_spec_disagrees :
    lineOutcome plainView fourCpuAnswers (topoLine []) ≠ callOutcome fourCpuAnswers [] ∧
    SpecText longSpec ∧ newline ∉ longSpec ∧ longSpec.length < cpuSpecLen ∧
    callOutcome fourCpuAnswers (cString longSpec) =
      some (some (replyError "CPUS is not in 1..N-1"), fourCpuAnswers.topo) ∧
    ∃ t, lineOutcome plainView fourCpuAnswers (topoLine longSpec) = some (some [], t) ∧
      t.testNcpus = 1 := by
  refine ⟨?_, ⟨by decide, by decide, by decide⟩, by decide, by decide, ?_, ?_⟩
  · obtain ⟨t, ht⟩ : ∃ t, callOutcome fourCpuAnswers [] = some (some [], t) := ⟨_, rfl⟩
    rw [lineOutcome_nil, ht]
    simp [replyError]
  · have hcpus : topoCpus fourCpuEnv (cString longSpec) = none := by decide
    have hset : kstepTopoSet fourCpuAnswers.env fourCpuAnswers.topo (cString longSpec) =
        some (some "CPUS is not in 1..N-1", fourCpuAnswers.topo) := by
      rw [kstepTopoSet, show topoCpus fourCpuAnswers.env (cString longSpec) = none from hcpus]
    rw [callOutcome, hset]
    rfl
  · have houtcome : lineOutcome plainView fourCpuAnswers (topoLine longSpec) =
        callOutcome fourCpuAnswers (cString (longSpec.take 118)) :=
      lineOutcome_cut ⟨by decide, by decide, by decide⟩ (by decide)
    rw [houtcome]
    exact ⟨_, rfl, rfl⟩

end KStep.Driver
