import KStep.Checked
import KStep.FuzzCommand

/-!
# The loops of the decoder

`decode` with every index, remainder, sum, difference, shift and growth of a vector made explicit,
each of which may stop the program.
-/

namespace KStep.Fuzz

open CString Trim Cli Checked

/-- The bytes of a task number and of a string in a vector. -/
def usizeBytes : ℕ := 8

def stringBytes : ℕ := 24

def Decoder.pushTask (d : Decoder) : Except Panic Decoder := do
  let ntasks ← add d.ntasks 1
  let alive ← push usizeBytes d.alive ntasks
  return { d with alive := alive, ntasks := ntasks }

def Decoder.pushTasks (d : Decoder) : ℕ → Except Panic Decoder
  | 0 => .ok d
  | n + 1 => do (← d.pushTasks n).pushTask

def Decoder.pushCgroup (d : Decoder) (path : Line) : Except Panic Decoder := do
  let cgroups ← push stringBytes d.cgroups path
  return { d with cgroups := cgroups }

def Decoder.setupChecked (d : Decoder) (line : Line) : Except Panic Decoder :=
  match splitOnce line with
  | (verb, rest) =>
    if verb = "create".toList then d.pushTasks ((parseI32 (trim rest)).getD 1).toNat
    else if verb = "cgroup-create".toList then d.pushCgroup rest
    else .ok d

def Decoder.taskChecked (d : Decoder) (a : ℕ) : Except Panic ℕ := do
  index d.alive (← rem a d.alive.length)

def cpuChecked (testCpus b : ℕ) : Except Panic ℕ := do add 1 (← rem b testCpus)

def Decoder.cgroupChecked (d : Decoder) (b : ℕ) : Except Panic Line := do
  index d.cgroups (← rem b d.cgroups.length)

def Bug.verbChecked (bug : Bug) (r : Record) : Except Panic Line := do
  let nverbs ← add generalVerbs.length bug.verbs.length
  let i ← rem r.verb.toNat nverbs
  if i < generalVerbs.length then index generalVerbs i
  else index bug.verbs (← sub i generalVerbs.length)

def pickChecked (b : ℕ) : List ℕ → Except Panic (List ℕ)
  | [] => .ok []
  | i :: is => do
    let bits ← shr b i
    let rest ← pickChecked b is
    return if bits % 2 = 1 then i :: rest else rest

def cpusChecked (testCpus b : ℕ) : Except Panic (List ℕ) := do
  let picked ← pickChecked b (List.range testCpus)
  if picked = [] then return [← cpuChecked testCpus b] else picked.mapM (add · 1)

def Bug.recordChecked (bug : Bug) (testCpus : ℕ) (d : Decoder) (r : Record) :
    Except Panic (Decoder × Line) := do
  let verb ← bug.verbChecked r
  let a := r.a.toNat
  let b := r.b.toNat
  let c := r.c.toNat
  if (armOf verb).needsTask && d.alive.isEmpty then return (d, "tick".toList)
  match armOf verb with
  | .tick => return (d, "tick".toList)
  | .create => return (← d.pushTask, "create".toList)
  | .cpuFreq =>
      let cpu ← cpuChecked testCpus a
      let scale ← add 1 (b % 1024)
      return (d, say "cpu-freq".toList [dec cpu, dec scale])
  | .policyFair =>
      let task ← d.taskChecked a
      let policy ← index fairPolicies (← rem b fairPolicies.length)
      let nice ← subInt ((c : ℤ) % 40) 20
      return (d, say "policy-fair".toList [dec task, policy, decInt nice])
  | .policyRt =>
      let task ← d.taskChecked a
      let policy ← index rtPolicies (← rem b rtPolicies.length)
      let prio ← add 1 (c % 99)
      return (d, say "policy-rt".toList [dec task, policy, dec prio])
  | .affinity =>
      let cpus ← cpusChecked testCpus b
      let task ← d.taskChecked a
      return (d, say "affinity".toList [dec task, cpuText cpus])
  | .kill =>
      let task ← d.taskChecked a
      return ({ d with alive := d.alive.filter (· ≠ task) }, say "kill".toList [dec task])
  | .cgroupCreate =>
      let parent ← if d.cgroups = [] ∨ b % 2 = 0 then pure [] else d.cgroupChecked b
      let path := cgroupPath parent (← add d.cgroups.length 1)
      return (← d.pushCgroup path, say "cgroup-create".toList [path])
  | .cgroupWeight =>
      if d.cgroups = [] then return (d, "tick".toList)
      let weight ← add 1 ((b * 256 + c) % 10000)
      let path ← d.cgroupChecked a
      return (d, say "cgroup-weight".toList [path, dec weight])
  | .cgroupDestroy =>
      if d.cgroups = [] then return (d, "tick".toList)
      return (d, say "cgroup-destroy".toList [← d.cgroupChecked a])
  | .cgroupAttach =>
      let g ← rem b (← add d.cgroups.length 1)
      if g = 0 then
        return (d, say "cgroup-attach".toList ["/".toList, dec (← d.taskChecked a)])
      let path ← index d.cgroups (← sub g 1)
      return (d, say "cgroup-attach".toList [path, dec (← d.taskChecked a)])
  | .other => return (d, say verb [dec (← d.taskChecked a)])

def setupProgramChecked (d : Decoder) : List Line → Except Panic (Decoder × Program)
  | [] => .ok (d, [])
  | line :: rest => do
    let d' ← d.setupChecked line
    let (last, prog) ← setupProgramChecked d' rest
    return (last, (line, d') :: prog)

def recordProgramChecked (bug : Bug) (testCpus : ℕ) (d : Decoder) :
    List Record → Except Panic (Decoder × Program)
  | [] => .ok (d, [])
  | r :: rest => do
    let (d', line) ← bug.recordChecked testCpus d r
    let (last, prog) ← recordProgramChecked bug testCpus d' rest
    return (last, (line, d') :: prog)

/-- `decode` with its panics. The vectors of the entry have been built before it is called. -/
def decodeChecked (bytes : List UInt8) (bug : Bug) : Except Panic Program := do
  if ¬ Fits stringBytes bug.verbs.length then throw .outOfMemory
  let testCpus ← sub bug.numCpus 1
  let (d, setup) ← setupProgramChecked Decoder.start bug.setup
  let (d', records) ← recordProgramChecked bug testCpus d ((chunks bytes).take maxRecords)
  let checks := bug.checks.map fun c => (say "check".toList [c], Decoder.start)
  return checks ++ (setup ++ (records ++ List.replicate 3 ("tick".toList, d')))

end KStep.Fuzz
