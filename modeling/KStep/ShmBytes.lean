import KStep.ShmLossless

/-!
# The bytes of the shared region

The decoder takes a byte string as a `kstep_shm` whatever is in it. The records are read off at
their offsets in the C layout, little-endian, with the padding the compiler adds.
-/

namespace KStep.Shm

def byteAt (b : List UInt8) (i : ℕ) : UInt8 := b.getD i 0

def u32At (b : List UInt8) (i : ℕ) : UInt32 :=
  UInt32.ofNat ((byteAt b i).toNat + 2 ^ 8 * (byteAt b (i + 1)).toNat +
    2 ^ 16 * (byteAt b (i + 2)).toNat + 2 ^ 24 * (byteAt b (i + 3)).toNat)

def u64At (b : List UInt8) (i : ℕ) : UInt64 :=
  UInt64.ofNat ((u32At b i).toNat + 2 ^ 32 * (u32At b (i + 4)).toNat)

def s32At (b : List UInt8) (i : ℕ) : Int32 := (u32At b i).toInt32

def s64At (b : List UInt8) (i : ℕ) : Int64 := (u64At b i).toInt64

def arrayAt {R : Type} (size cap : ℕ) (row : List UInt8 → ℕ → R) (b : List UInt8) (i : ℕ) :
    Vector R cap :=
  Vector.ofFn fun j => row b (i + size * j)

def charsAt (n : ℕ) : List UInt8 → ℕ → Vector UInt8 n := arrayAt 1 n byteAt

def hdrAt (b : List UInt8) (i : ℕ) : Hdr where
  layout := u32At b i
  features := u32At b (i + 4)
  timestamp := u32At b (i + 8)
  ncpus := u32At b (i + 12)
  ntasks := u32At b (i + 16)
  ncgroups := u32At b (i + 20)
  ndomains := u32At b (i + 24)
  ngroups := u32At b (i + 28)
  nentities := u32At b (i + 32)
  nrtEntities := u32At b (i + 36)

def cpuAt (b : List UInt8) (i : ℕ) : CpuRow where
  nrRunning := u64At b i
  nrSwitches := u64At b (i + 8)
  cpu := u32At b (i + 16)
  curr := u32At b (i + 20)
  idle := u32At b (i + 24)
  capacity := u32At b (i + 28)
  freq := u32At b (i + 32)
  nextBalanceIn := u32At b (i + 36)

def seAt (b : List UInt8) (i : ℕ) : SeRow where
  weight := u64At b i
  sumExecRuntime := u64At b (i + 8)
  vruntime := s64At b (i + 16)
  deadline := s64At b (i + 24)
  slice := u64At b (i + 32)
  lag := s64At b (i + 40)
  flags := u32At b (i + 48)

def taskAt (b : List UInt8) (i : ℕ) : TaskRow where
  cpus := u64At b i
  sumExecRuntime := u64At b (i + 8)
  task := u32At b (i + 16)
  state := u32At b (i + 20)
  cpu := u32At b (i + 24)
  policy := u32At b (i + 28)
  nice := s32At b (i + 32)
  rtPriority := u32At b (i + 36)
  cgroup := u32At b (i + 40)

def cgroupAt (b : List UInt8) (i : ℕ) : CgroupRow where
  cpus := u64At b i
  weight := u32At b (i + 8)
  path := charsAt pathLen b (i + 12)

def cfsAt (b : List UInt8) (i : ℕ) : CfsRow where
  utilAvg := u64At b i
  loadAvg := u64At b (i + 8)
  runnableAvg := u64At b (i + 16)
  hNrRunnable := u64At b (i + 24)
  cpu := u32At b (i + 32)

def entityAt (b : List UInt8) (i : ℕ) : EntityRow where
  se := seAt b i
  task := u32At b (i + 56)
  cgroup := u32At b (i + 60)
  cpu := u32At b (i + 64)

def rtAt (b : List UInt8) (i : ℕ) : RtRow where
  rtTime := u64At b i
  rtRuntime := u64At b (i + 8)
  cpu := u32At b (i + 16)
  nrRunning := u32At b (i + 20)
  highestPrio := u32At b (i + 24)
  throttled := u32At b (i + 28)

def rtEntityAt (b : List UInt8) (i : ℕ) : RtEntityRow where
  task := u32At b i
  cpu := u32At b (i + 4)
  flags := u32At b (i + 8)
  position := u32At b (i + 12)
  timeSlice := u32At b (i + 16)

def domainAt (b : List UInt8) (i : ℕ) : DomainRow where
  span := u64At b i
  flags := u64At b (i + 8)
  cpu := u32At b (i + 16)
  group := u32At b (i + 20)
  ngroups := u32At b (i + 24)
  imbalancePct := u32At b (i + 28)
  balanceInterval := u32At b (i + 32)
  busyFactor := u32At b (i + 36)
  cacheNiceTries := u32At b (i + 40)
  nrBalanceFailed := u32At b (i + 44)
  nextBalanceIn := u32At b (i + 48)
  balancer := u32At b (i + 52)
  name := charsAt nameLen b (i + 56)

def groupAt (b : List UInt8) (i : ℕ) : GroupRow where
  span := u64At b i
  capacity := u32At b (i + 8)
  minCapacity := u32At b (i + 12)
  maxCapacity := u32At b (i + 16)
  weight := u32At b (i + 20)

def cpuTable : ℕ := 40 + kstepShmSdFlagLen * kstepShmSdFlags
def taskTable : ℕ := cpuTable + 40 * kstepShmCpus
def cgroupTable : ℕ := taskTable + 48 * kstepShmTasks
def domainTable : ℕ := cgroupTable + 56 * kstepShmCgroups
def groupTable : ℕ := domainTable + 64 * kstepShmDomains
def cfsTable : ℕ := groupTable + 24 * kstepShmGroups
def entityTable : ℕ := cfsTable + 40 * kstepShmCpus
def rtTable : ℕ := entityTable + 72 * kstepShmEntities
def rtEntityTable : ℕ := rtTable + 32 * kstepShmCpus

def shmSize : ℕ := rtEntityTable + 20 * kstepShmTasks

example : shmSize = 85928 := rfl

def readRegion (b : List UInt8) : Region where
  hdr := hdrAt b 0
  sdFlag := arrayAt kstepShmSdFlagLen _ (charsAt kstepShmSdFlagLen) b 40
  cpu := arrayAt 40 _ cpuAt b cpuTable
  task := arrayAt 48 _ taskAt b taskTable
  cgroup := arrayAt 56 _ cgroupAt b cgroupTable
  domain := arrayAt 64 _ domainAt b domainTable
  group := arrayAt 24 _ groupAt b groupTable
  cfs := arrayAt 40 _ cfsAt b cfsTable
  entity := arrayAt 72 _ entityAt b entityTable
  rt := arrayAt 32 _ rtAt b rtTable
  rtEntity := arrayAt 20 _ rtEntityAt b rtEntityTable

def decodeBytes (b : List UInt8) : Except Stop State := decode shmSize readRegion b

end KStep.Shm
