import KStep.ShmUpdate

/-!
# Decoding the shared region

The host reads a snapshot as one `kstep_shm` and slices each table by its count. The sum that ends a
domain's run of groups is the one place where `decode` computes; where it leaves `u32` the decoder
stops.
-/

namespace KStep.Shm

def isCont (b : UInt8) : Bool := b &&& 0xC0 == 0x80

def isSecond3 (a b : UInt8) : Bool :=
  if a == 0xE0 then 0xA0 ≤ b && b ≤ 0xBF else if a == 0xED then 0x80 ≤ b && b ≤ 0x9F else isCont b

def isSecond4 (a b : UInt8) : Bool :=
  if a == 0xF0 then 0x90 ≤ b && b ≤ 0xBF else if a == 0xF4 then 0x80 ≤ b && b ≤ 0x8F else isCont b

def scalar (lead : ℕ) (conts : List UInt8) : Char :=
  Char.ofNat (conts.foldl (fun n b => n * 64 + b.toNat % 64) lead)

def replacement : Char := '\uFFFD'

/-- `String::from_utf8_lossy`: a sequence that is no character is replaced as far as it could have
been the start of one. -/
def fromUtf8Lossy : List UInt8 → List Char
  | [] => []
  | a :: s =>
    if a < 0x80 then scalar a.toNat [] :: fromUtf8Lossy s
    else if 0xC2 ≤ a && a ≤ 0xDF then match s with
      | b :: s' =>
        if isCont b then scalar (a.toNat % 32) [b] :: fromUtf8Lossy s'
        else replacement :: fromUtf8Lossy (b :: s')
      | [] => [replacement]
    else if 0xE0 ≤ a && a ≤ 0xEF then match s with
      | b :: s' =>
        if isSecond3 a b then match s' with
          | c :: s'' =>
            if isCont c then scalar (a.toNat % 16) [b, c] :: fromUtf8Lossy s''
            else replacement :: fromUtf8Lossy (c :: s'')
          | [] => [replacement]
        else replacement :: fromUtf8Lossy (b :: s')
      | [] => [replacement]
    else if 0xF0 ≤ a && a ≤ 0xF4 then match s with
      | b :: s' =>
        if isSecond4 a b then match s' with
          | c :: s'' =>
            if isCont c then match s'' with
              | d :: s''' =>
                if isCont d then scalar (a.toNat % 8) [b, c, d] :: fromUtf8Lossy s'''
                else replacement :: fromUtf8Lossy (d :: s''')
              | [] => [replacement]
            else replacement :: fromUtf8Lossy (c :: s'')
          | [] => [replacement]
        else replacement :: fromUtf8Lossy (b :: s')
      | [] => [replacement]
    else replacement :: fromUtf8Lossy s

def cstr {n : ℕ} (s : Vector UInt8 n) : List Char := fromUtf8Lossy (cBytes s.toList)

inductive Error where
  | layout (l : UInt32)
  | count
  | short
  deriving DecidableEq

/-- How decoding ends without a state. -/
inductive Stop where
  | error (e : Error)
  | overflow
  deriving DecidableEq

structure Cpu where
  cpu : UInt32
  current : UInt32
  idle : Bool
  capacity : UInt32
  freq : UInt32
  nextBalanceIn : UInt32
  nrRunning : UInt64
  nrSwitches : UInt64

structure Task where
  task : UInt32
  state : String
  cpu : UInt32
  policy : String
  nice : Int32
  rtPriority : UInt32
  cgroup : List Char
  cpus : UInt64
  sumExecRuntime : UInt64

structure CgroupInfo where
  path : List Char
  cpus : UInt64
  weight : UInt32

structure Cfs where
  cpu : UInt32
  utilAvg : UInt64
  loadAvg : UInt64
  runnableAvg : UInt64
  hNrRunnable : UInt64

structure Entity where
  task : UInt32
  cgroup : List Char
  cpu : UInt32
  eligible : Bool
  delayed : Bool
  onRq : Bool
  curr : Bool
  pick : Bool
  weight : UInt64
  sumExecRuntime : UInt64
  vruntime : Int64
  deadline : Int64
  slice : UInt64
  lag : Int64

structure Rt where
  cpu : UInt32
  nrRunning : UInt32
  highestPrio : UInt32
  throttled : Bool
  rtTime : UInt64
  rtRuntime : UInt64

structure RtEntity where
  task : UInt32
  cpu : UInt32
  onRq : Bool
  curr : Bool
  pick : Bool
  position : UInt32
  timeSlice : UInt32

structure Group where
  span : UInt64
  capacity : UInt32
  minCapacity : UInt32
  maxCapacity : UInt32
  weight : UInt32

structure Domain where
  cpu : UInt32
  span : UInt64
  name : List Char
  flags : List Char
  imbalancePct : UInt32
  balanceInterval : UInt32
  busyFactor : UInt32
  cacheNiceTries : UInt32
  nrBalanceFailed : UInt32
  nextBalanceIn : UInt32
  balancer : UInt32
  groups : List Group

structure State where
  timestamp : UInt32
  eevdf : Bool
  cpus : List Cpu
  tasks : List Task
  groups : List CgroupInfo
  domains : List Domain
  cfs : List Cfs
  entities : List Entity
  rt : List Rt
  rtEntities : List RtEntity

def taskStates : List String := ["running", "runnable", "sleeping", "blocked"]

def policyName (n : UInt32) : String :=
  match n.toNat with
  | 0 => "normal"
  | 1 => "fifo"
  | 2 => "rr"
  | 3 => "batch"
  | 5 => "idle"
  | _ => "?"

/-- The first `n` records of a table, or `Count` when the header claims more than fit. -/
def table {R T : Type} {cap : ℕ} (rows : Vector R cap) (n : UInt32) (f : R → T) :
    Except Stop (List T) :=
  if n.toNat ≤ cap then .ok ((rows.toList.take n.toNat).map f) else .error (.error .count)

def decodeCpu (c : CpuRow) : Cpu :=
  ⟨c.cpu, c.curr, c.idle != 0, c.capacity, c.freq, c.nextBalanceIn, c.nrRunning, c.nrSwitches⟩

def decodeCgroup (g : CgroupRow) : CgroupInfo := ⟨cstr g.path, g.cpus, g.weight⟩

def groupPath (groups : List CgroupInfo) (i : UInt32) : List Char :=
  match groups[i.toNat]? with
  | none => ['/']
  | some g => g.path

def decodeTask (groups : List CgroupInfo) (t : TaskRow) : Task where
  task := t.task
  state := taskStates.getD t.state.toNat "?"
  cpu := t.cpu
  policy := policyName t.policy
  nice := t.nice
  rtPriority := t.rtPriority
  cgroup := groupPath groups t.cgroup
  cpus := t.cpus
  sumExecRuntime := t.sumExecRuntime

def decodeCfs (q : CfsRow) : Cfs := ⟨q.cpu, q.utilAvg, q.loadAvg, q.runnableAvg, q.hNrRunnable⟩

def decodeEntity (groups : List CgroupInfo) (e : EntityRow) : Entity where
  task := e.task
  cgroup := groupPath groups e.cgroup
  cpu := e.cpu
  eligible := e.se.flags &&& kstepSeEligible != 0
  delayed := e.se.flags &&& kstepSeDelayed != 0
  onRq := e.se.flags &&& kstepSeOnRq != 0
  curr := e.se.flags &&& kstepSeCurr != 0
  pick := e.se.flags &&& kstepSePick != 0
  weight := e.se.weight
  sumExecRuntime := e.se.sumExecRuntime
  vruntime := e.se.vruntime
  deadline := e.se.deadline
  slice := e.se.slice
  lag := e.se.lag

def decodeRt (q : RtRow) : Rt :=
  ⟨q.cpu, q.nrRunning, q.highestPrio, q.throttled != 0, q.rtTime, q.rtRuntime⟩

def decodeRtEntity (e : RtEntityRow) : RtEntity :=
  ⟨e.task, e.cpu, e.flags &&& kstepRtOnRq != 0, e.flags &&& kstepRtCurr != 0,
    e.flags &&& kstepRtPick != 0, e.position, e.timeSlice⟩

def decodeGroup (g : GroupRow) : Group :=
  ⟨g.span, g.capacity, g.minCapacity, g.maxCapacity, g.weight⟩

def flagNames (r : Region) (mask : UInt64) : List Char :=
  let names := (List.finRange kstepShmSdFlags).filterMap fun bit : Fin _ =>
    if mask.toNat.testBit bit.val then some (cstr (r.sdFlag.get bit)) else none
  [',', ' '].intercalate (names.filter (· ≠ []))

/-- The groups of a domain: its run of the group table, or none when the run leaves the table. -/
def decodeRun (groups : List Group) (d : DomainRow) : Except Stop (List Group) :=
  let first := d.group.toNat
  let last := d.group.toNat + d.ngroups.toNat
  if 2 ^ 32 ≤ last then .error .overflow
  else if last ≤ groups.length then .ok ((groups.drop first).take (last - first))
  else .ok []

def decodeDomain (r : Region) (groups : List Group) (d : DomainRow) : Except Stop Domain := do
  let run ← decodeRun groups d
  return {
    cpu := d.cpu
    span := d.span
    name := cstr d.name
    flags := flagNames r d.flags
    imbalancePct := d.imbalancePct
    balanceInterval := d.balanceInterval
    busyFactor := d.busyFactor
    cacheNiceTries := d.cacheNiceTries
    nrBalanceFailed := d.nrBalanceFailed
    nextBalanceIn := d.nextBalanceIn
    balancer := d.balancer
    groups := run }

def decodeRegion (r : Region) : Except Stop State := do
  let h := r.hdr
  if h.layout ≠ kstepShmLayout then throw (.error (.layout h.layout))
  let cpus ← table r.cpu h.ncpus decodeCpu
  let groups ← table r.cgroup h.ncgroups decodeCgroup
  let tasks ← table r.task h.ntasks (decodeTask groups)
  let cfs ← table r.cfs h.ncpus decodeCfs
  let entities ← table r.entity h.nentities (decodeEntity groups)
  let rt ← table r.rt h.ncpus decodeRt
  let rtEntities ← table r.rtEntity h.nrtEntities decodeRtEntity
  let allGroups ← table r.group h.ngroups decodeGroup
  let rows ← table r.domain h.ndomains id
  let domains ← rows.mapM (decodeDomain r allGroups)
  return {
    timestamp := h.timestamp
    eevdf := h.features &&& kstepShmEevdf != 0
    cpus, tasks, groups, domains, cfs, entities, rt, rtEntities }

/-- `decode` of a snapshot, where `size` bytes hold a region that `read` reads. -/
def decode (size : ℕ) (read : List UInt8 → Region) (b : List UInt8) : Except Stop State :=
  if b.length < size then .error (.error .short) else decodeRegion (read b)

end KStep.Shm
