import KStep.CString
import Mathlib.Data.List.Basic

/-!
# The fuzzer's decoder

`decode` turns a byte string into cli lines: the checks and setup lines of a `bugs.yaml` entry, one
line for each 4-byte record and three closing ticks. On the way it numbers the tasks it believes
the guest has created, which later lines refer to. A character of a line stands for a byte.
-/

namespace KStep.Fuzz

open CString Trim

abbrev Line := List Char

structure Bug where
  numCpus : ℕ
  checks : List Line
  verbs : List Line
  setup : List Line

def maxRecords : ℕ := 64

def generalVerbs : List Line :=
  ["tick".toList, "policy-fair".toList, "affinity".toList, "pause".toList, "wake".toList]

def fairPolicies : List Line := ["normal".toList, "batch".toList, "idle".toList]

def rtPolicies : List Line := ["fifo".toList, "rr".toList]

/-- What the host knows of the program so far: the tasks not yet killed, the number created, and
the cgroups created. -/
structure Decoder where
  alive : List ℕ
  ntasks : ℕ
  cgroups : List Line

def Decoder.start : Decoder := ⟨[], 0, []⟩

def isWhitespace (c : Char) : Bool :=
  let n := c.toNat
  (9 ≤ n && n ≤ 13) || n == 0x20 || n == 0x85 || n == 0xa0 || n == 0x1680 ||
    (0x2000 ≤ n && n ≤ 0x200a) || n == 0x2028 || n == 0x2029 || n == 0x202f || n == 0x205f ||
    n == 0x3000

def trim (s : List Char) : List Char := trimBy isWhitespace s

def parseDigits (s : List Char) : Option ℕ :=
  if s = [] then none else if s.all isDigit then some (digitsValue s) else none

def parseI32 (s : List Char) : Option ℤ := parseInt parseDigits s

/-- `line.split_once(' ').unwrap_or((line, ""))`. -/
def splitOnce (line : Line) : Line × Line :=
  match strsep (· == ' ') line with
  | (before, rest) => (before, rest.getD [])

def Decoder.addTasks (d : Decoder) (n : ℕ) : Decoder :=
  { d with alive := d.alive ++ List.range' (d.ntasks + 1) n, ntasks := d.ntasks + n }

def Decoder.setup (d : Decoder) (line : Line) : Decoder :=
  match splitOnce line with
  | (verb, rest) =>
    if verb = "create".toList then d.addTasks ((parseI32 (trim rest)).getD 1).toNat
    else if verb = "cgroup-create".toList then { d with cgroups := d.cgroups ++ [rest] }
    else d

structure Record where
  verb : UInt8
  a : UInt8
  b : UInt8
  c : UInt8

/-- `bytes.as_chunks::<4>().0`. -/
def chunks : List UInt8 → List Record
  | v :: a :: b :: c :: rest => ⟨v, a, b, c⟩ :: chunks rest
  | _ => []

def dec (n : ℕ) : List Char := (toString n).toList

def decInt (n : ℤ) : List Char := (toString n).toList

def Bug.verbAt (bug : Bug) (r : Record) : Line :=
  let all := generalVerbs ++ bug.verbs
  all.getD (r.verb.toNat % all.length) []

/-- The arms of the match on the verb; `other` is the one for any other task verb. -/
inductive Arm
  | tick | create | cpuFreq | policyFair | policyRt | affinity | kill
  | cgroupCreate | cgroupWeight | cgroupDestroy | cgroupAttach | other
  deriving DecidableEq, Repr

def arms : List (Line × Arm) :=
  [("tick".toList, .tick), ("create".toList, .create), ("cpu-freq".toList, .cpuFreq),
    ("policy-fair".toList, .policyFair), ("policy-rt".toList, .policyRt),
    ("affinity".toList, .affinity), ("kill".toList, .kill),
    ("cgroup-create".toList, .cgroupCreate), ("cgroup-weight".toList, .cgroupWeight),
    ("cgroup-destroy".toList, .cgroupDestroy), ("cgroup-attach".toList, .cgroupAttach)]

def armOf (verb : Line) : Arm := (arms.lookup verb).getD .other

def Arm.needsTask : Arm → Bool
  | .tick | .create | .cpuFreq | .cgroupCreate | .cgroupWeight | .cgroupDestroy => false
  | _ => true

def Decoder.task (d : Decoder) (a : ℕ) : ℕ := d.alive.getD (a % d.alive.length) 0

def Bug.testCpus (bug : Bug) : ℕ := bug.numCpus - 1

def Bug.cpu (bug : Bug) (b : ℕ) : ℕ := 1 + b % bug.testCpus

/-- The CPU list of an `affinity` line: the test CPUs whose bit of `b` is set, or one of them. -/
def Bug.cpuList (bug : Bug) (b : ℕ) : List Char :=
  let cpus := (List.range bug.testCpus).filter fun i => b.testBit i
  let cpus := if cpus = [] then [bug.cpu b] else cpus.map (· + 1)
  [','].intercalate (cpus.map dec)

def say (verb : Line) (args : List (List Char)) : Line :=
  verb ++ args.flatMap fun arg => ' ' :: arg

def Decoder.cgroup (d : Decoder) (b : ℕ) : Line := d.cgroups.getD (b % d.cgroups.length) []

def Decoder.newCgroup (d : Decoder) (b : ℕ) : Line :=
  let parent := if d.cgroups = [] ∨ b % 2 = 0 then [] else d.cgroup b
  parent ++ "/g".toList ++ dec (d.cgroups.length + 1)

def Bug.record (bug : Bug) (d : Decoder) (r : Record) : Decoder × Line :=
  let verb := bug.verbAt r
  let a := r.a.toNat
  let b := r.b.toNat
  let c := r.c.toNat
  if (armOf verb).needsTask && d.alive.isEmpty then (d, "tick".toList)
  else match armOf verb with
    | .tick => (d, "tick".toList)
    | .create => (d.addTasks 1, "create".toList)
    | .cpuFreq => (d, say "cpu-freq".toList [dec (bug.cpu a), dec (1 + b % 1024)])
    | .policyFair => (d, say "policy-fair".toList
        [dec (d.task a), fairPolicies.getD (b % 3) [], decInt ((c : ℤ) % 40 - 20)])
    | .policyRt => (d, say "policy-rt".toList
        [dec (d.task a), rtPolicies.getD (b % 2) [], dec (1 + c % 99)])
    | .affinity => (d, say "affinity".toList [dec (d.task a), bug.cpuList b])
    | .kill => ({ d with alive := d.alive.filter (· ≠ d.task a) },
        say "kill".toList [dec (d.task a)])
    | .cgroupCreate => ({ d with cgroups := d.cgroups ++ [d.newCgroup b] },
        say "cgroup-create".toList [d.newCgroup b])
    | .cgroupWeight => if d.cgroups = [] then (d, "tick".toList)
        else (d, say "cgroup-weight".toList [d.cgroup a, dec (1 + (b * 256 + c) % 10000)])
    | .cgroupDestroy => if d.cgroups = [] then (d, "tick".toList)
        else (d, say "cgroup-destroy".toList [d.cgroup a])
    | .cgroupAttach => match b % (d.cgroups.length + 1) with
      | 0 => (d, say "cgroup-attach".toList ["/".toList, dec (d.task a)])
      | g + 1 => (d, say "cgroup-attach".toList [d.cgroups.getD g [], dec (d.task a)])
    | .other => (d, say verb [dec (d.task a)])

abbrev Program := List (Line × Decoder)

def setupProgram (d : Decoder) : List Line → Program
  | [] => []
  | line :: rest => (line, d.setup line) :: setupProgram (d.setup line) rest

def recordProgram (bug : Bug) (d : Decoder) : List Record → Program
  | [] => []
  | r :: rest => ((bug.record d r).2, (bug.record d r).1) ::
      recordProgram bug (bug.record d r).1 rest

def decode (bytes : List UInt8) (bug : Bug) : Program :=
  let checks := bug.checks.map fun c => (say "check".toList [c], Decoder.start)
  let setup := setupProgram Decoder.start bug.setup
  let d := bug.setup.foldl Decoder.setup Decoder.start
  let rs := (chunks bytes).take maxRecords
  let d' := rs.foldl (fun d r => (bug.record d r).1) d
  checks ++ (setup ++ (recordProgram bug d rs ++ List.replicate 3 ("tick".toList, d')))

end KStep.Fuzz
