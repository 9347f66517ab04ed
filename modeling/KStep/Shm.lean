import KStep.Machine
import Mathlib.Data.Finset.Sort

/-!
# The shared region and what is written into it

The records of the region the host reads, and the state of the kernel that `kstep_shm_update` reads
to fill them. A task, an idle task or a queue entry is known by its address.
-/

namespace KStep.Shm

def kstepShmLayout : UInt32 := 14
def kstepShmEevdf : UInt32 := 1

def kstepShmCpus : ℕ := 32
def kstepShmCgroups : ℕ := 16
def kstepShmEntities : ℕ := kstepShmTasks + kstepShmCgroups * kstepShmCpus
def kstepShmDomains : ℕ := kstepShmCpus * 5
def kstepShmGroups : ℕ := 1024
def kstepShmSdFlags : ℕ := 32
def kstepShmSdFlagLen : ℕ := 24
def pathLen : ℕ := 40
def nameLen : ℕ := 8

structure Hdr where
  layout : UInt32
  features : UInt32
  timestamp : UInt32
  ncpus : UInt32
  ntasks : UInt32
  ncgroups : UInt32
  ndomains : UInt32
  ngroups : UInt32
  nentities : UInt32
  nrtEntities : UInt32
  deriving Inhabited

structure CpuRow where
  nrRunning : UInt64
  nrSwitches : UInt64
  cpu : UInt32
  curr : UInt32
  idle : UInt32
  capacity : UInt32
  freq : UInt32
  nextBalanceIn : UInt32
  deriving Inhabited

structure SeRow where
  weight : UInt64
  sumExecRuntime : UInt64
  vruntime : Int64
  deadline : Int64
  slice : UInt64
  lag : Int64
  flags : UInt32
  deriving Inhabited

structure TaskRow where
  cpus : UInt64
  sumExecRuntime : UInt64
  task : UInt32
  state : UInt32
  cpu : UInt32
  policy : UInt32
  nice : Int32
  rtPriority : UInt32
  cgroup : UInt32
  deriving Inhabited

structure CgroupRow where
  cpus : UInt64
  weight : UInt32
  path : Vector UInt8 pathLen
  deriving Inhabited

structure CfsRow where
  utilAvg : UInt64
  loadAvg : UInt64
  runnableAvg : UInt64
  hNrRunnable : UInt64
  cpu : UInt32
  deriving Inhabited

structure EntityRow where
  se : SeRow
  task : UInt32
  cgroup : UInt32
  cpu : UInt32
  deriving Inhabited

structure RtRow where
  rtTime : UInt64
  rtRuntime : UInt64
  cpu : UInt32
  nrRunning : UInt32
  highestPrio : UInt32
  throttled : UInt32
  deriving Inhabited

structure RtEntityRow where
  task : UInt32
  cpu : UInt32
  flags : UInt32
  position : UInt32
  timeSlice : UInt32
  deriving Inhabited

structure DomainRow where
  span : UInt64
  flags : UInt64
  cpu : UInt32
  group : UInt32
  ngroups : UInt32
  imbalancePct : UInt32
  balanceInterval : UInt32
  busyFactor : UInt32
  cacheNiceTries : UInt32
  nrBalanceFailed : UInt32
  nextBalanceIn : UInt32
  balancer : UInt32
  name : Vector UInt8 nameLen
  deriving Inhabited

structure GroupRow where
  span : UInt64
  capacity : UInt32
  minCapacity : UInt32
  maxCapacity : UInt32
  weight : UInt32
  deriving Inhabited

structure Region where
  hdr : Hdr
  sdFlag : Vector (Vector UInt8 kstepShmSdFlagLen) kstepShmSdFlags
  cpu : Vector CpuRow kstepShmCpus
  task : Vector TaskRow kstepShmTasks
  cgroup : Vector CgroupRow kstepShmCgroups
  domain : Vector DomainRow kstepShmDomains
  group : Vector GroupRow kstepShmGroups
  cfs : Vector CfsRow kstepShmCpus
  entity : Vector EntityRow kstepShmEntities
  rt : Vector RtRow kstepShmCpus
  rtEntity : Vector RtEntityRow kstepShmTasks

def kernelVersion (a b c : ℕ) : ℕ := a * 65536 + b * 256 + c

/-- The kernel the module is built against: its version and options, and what it computes. -/
structure Kernel where
  version : ℕ
  cgroupSched : Bool
  fairGroupSched : Bool
  cpusets : Bool
  smp : Bool
  rtGroupSched : Bool
  schedClassExt : Bool
  hz : UInt64
  nrCpuIds : ℕ
  sdShareCpucapacity : UInt64
  /-- The names in `sd_flags.h`. -/
  sdFlags : List (List UInt8)
  scaleLoadDown : UInt64 → UInt64
  msecsToJiffies : UInt32 → UInt64
  /-- The buffer `cgroup_path` leaves, or `none` when it reports an error. -/
  cgroupPath : List UInt8 → Option (Vector UInt8 pathLen)

/-- A `sched_entity` and what the kernel answers about it and its queue. -/
structure SchedEntity where
  weight : UInt64
  sumExecRuntime : UInt64
  vruntime : UInt64
  deadline : UInt64
  slice : UInt64
  vlag : Int64
  onRq : Bool
  isCurr : Bool
  schedDelayed : Bool
  eligible : Bool
  isPick : Bool
  avgVruntime : UInt64

/-- An entry of a real-time list: a task, or a group with a queue of its own, its lists in the order
of their priority. -/
inductive RtSe where
  | task (p : ℕ)
  | group (active : List (List RtSe))

structure Rq where
  curr : ℕ
  idle : ℕ
  nrRunning : UInt64
  nrSwitches : UInt64
  nextBalance : UInt64
  ttwuPending : Bool
  capacity : UInt32
  freq : UInt32
  utilAvg : UInt64
  loadAvg : UInt64
  runnableAvg : UInt64
  hNrRunnable : UInt64
  hNrRunning : UInt64
  rtQueued : Bool
  rtNrRunning : UInt32
  highestPrio : UInt32
  rtThrottled : UInt32
  rtTime : UInt64
  rtRuntime : UInt64
  active : List (List RtSe)

/-- What is read of a `task_struct`; `rtList` are the entries of the list of its priority on the
real-time queue that holds it. -/
structure TaskStruct where
  addr : ℕ
  exitState : UInt32
  state : UInt32
  onCpu : Bool
  cpu : UInt32
  policy : UInt32
  nice : Int32
  rtPriority : UInt32
  cpusPtr : UInt64
  se : SchedEntity
  rtTimeSlice : UInt32
  rtOnRq : Bool
  rtOnList : Bool
  rtList : List ℕ
  cgroup : List UInt8

/-- The cpu controller's state of a cgroup; the root's has no parent. -/
structure TaskGroup where
  hasParent : Bool
  shares : UInt64
  se : ℕ → Option SchedEntity

structure Cgroup where
  path : List UInt8
  online : Bool
  tg : Option TaskGroup
  cpuset : Option UInt64

/-- A cgroup and those under it. -/
inductive Css where
  | node (cgroup : Cgroup) (children : List Css)

structure SchedGroup where
  span : UInt64
  capacity : UInt64
  minCapacity : UInt64
  maxCapacity : UInt64
  weight : UInt32

/-- A sched domain of a CPU: `groups` is the CPU's own group, `moreGroups` the rest of the ring. -/
structure SchedDomain where
  span : UInt64
  flags : UInt64
  name : List UInt8
  imbalancePct : UInt32
  balanceInterval : UInt64
  nrBalanceFailed : UInt32
  busyFactor : UInt32
  cacheNiceTries : UInt32
  lastBalance : UInt64
  groupBalanceMask : Finset ℕ
  groups : SchedGroup
  moreGroups : List SchedGroup

/-- The machine when a command is over: the test CPUs are `1..ncpus`, task `n` is the `n`-th of
`tasks`. -/
structure Session where
  ncpus : ℕ
  jiffies : UInt64
  kstepJiffies : UInt32
  tasks : List TaskStruct
  rq : ℕ → Rq
  smtMask : ℕ → Finset ℕ
  domains : ℕ → List SchedDomain
  root : Option Css

end KStep.Shm
