import KStep.Layout
import KStep.ShmBytes

/-!
# The layout of the shared region

The rows of `shm.h` as the C compiler lays them out, member by member. The offsets at which the
decoder reads are those of the layout, so a region that the driver stores is the region that the
host reads.
-/

namespace KStep.Shm.CLayout

open Layout CType

def hdr : CType Hdr :=
  (((((((((u32.snoc u32).snoc u32).snoc u32).snoc u32).snoc u32).snoc u32).snoc u32).snoc
    u32).snoc u32).padded.view
    (fun (((((((((a, b), c), d), e), f), g), h), i), j) => ⟨a, b, c, d, e, f, g, h, i, j⟩)
    (fun r => (((((((((r.layout, r.features), r.timestamp), r.ncpus), r.ntasks), r.ncgroups),
      r.ndomains), r.ngroups), r.nentities), r.nrtEntities))
    fun _ => rfl

def cpu : CType CpuRow :=
  (((((((u64.snoc u64).snoc u32).snoc u32).snoc u32).snoc u32).snoc u32).snoc u32).padded.view
    (fun (((((((a, b), c), d), e), f), g), h) => ⟨a, b, c, d, e, f, g, h⟩)
    (fun r => (((((((r.nrRunning, r.nrSwitches), r.cpu), r.curr), r.idle), r.capacity), r.freq),
      r.nextBalanceIn))
    fun _ => rfl

def se : CType SeRow :=
  ((((((u64.snoc u64).snoc s64).snoc s64).snoc u64).snoc s64).snoc u32).padded.view
    (fun ((((((a, b), c), d), e), f), g) => ⟨a, b, c, d, e, f, g⟩)
    (fun r => ((((((r.weight, r.sumExecRuntime), r.vruntime), r.deadline), r.slice), r.lag),
      r.flags))
    fun _ => rfl

def task : CType TaskRow :=
  ((((((((u64.snoc u64).snoc u32).snoc u32).snoc u32).snoc u32).snoc s32).snoc u32).snoc
    u32).padded.view
    (fun ((((((((a, b), c), d), e), f), g), h), i) => ⟨a, b, c, d, e, f, g, h, i⟩)
    (fun r => ((((((((r.cpus, r.sumExecRuntime), r.task), r.state), r.cpu), r.policy), r.nice),
      r.rtPriority), r.cgroup))
    fun _ => rfl

def cgroup : CType CgroupRow :=
  ((u64.snoc u32).snoc (u8.array pathLen)).padded.view
    (fun ((a, b), c) => ⟨a, b, c⟩) (fun r => ((r.cpus, r.weight), r.path)) fun _ => rfl

def cfs : CType CfsRow :=
  ((((u64.snoc u64).snoc u64).snoc u64).snoc u32).padded.view
    (fun ((((a, b), c), d), e) => ⟨a, b, c, d, e⟩)
    (fun r => ((((r.utilAvg, r.loadAvg), r.runnableAvg), r.hNrRunnable), r.cpu))
    fun _ => rfl

def entity : CType EntityRow :=
  (((se.snoc u32).snoc u32).snoc u32).padded.view
    (fun (((a, b), c), d) => ⟨a, b, c, d⟩) (fun r => (((r.se, r.task), r.cgroup), r.cpu))
    fun _ => rfl

def rt : CType RtRow :=
  (((((u64.snoc u64).snoc u32).snoc u32).snoc u32).snoc u32).padded.view
    (fun (((((a, b), c), d), e), f) => ⟨a, b, c, d, e, f⟩)
    (fun r => (((((r.rtTime, r.rtRuntime), r.cpu), r.nrRunning), r.highestPrio), r.throttled))
    fun _ => rfl

def rtEntity : CType RtEntityRow :=
  ((((u32.snoc u32).snoc u32).snoc u32).snoc u32).padded.view
    (fun ((((a, b), c), d), e) => ⟨a, b, c, d, e⟩)
    (fun r => ((((r.task, r.cpu), r.flags), r.position), r.timeSlice))
    fun _ => rfl

def domain : CType DomainRow :=
  ((((((((((((u64.snoc u64).snoc u32).snoc u32).snoc u32).snoc u32).snoc u32).snoc u32).snoc
    u32).snoc u32).snoc u32).snoc u32).snoc (u8.array nameLen)).padded.view
    (fun ((((((((((((a, b), c), d), e), f), g), h), i), j), k), l), m) =>
      ⟨a, b, c, d, e, f, g, h, i, j, k, l, m⟩)
    (fun r => ((((((((((((r.span, r.flags), r.cpu), r.group), r.ngroups), r.imbalancePct),
      r.balanceInterval), r.busyFactor), r.cacheNiceTries), r.nrBalanceFailed), r.nextBalanceIn),
      r.balancer), r.name))
    fun _ => rfl

def group : CType GroupRow :=
  ((((u64.snoc u32).snoc u32).snoc u32).snoc u32).padded.view
    (fun ((((a, b), c), d), e) => ⟨a, b, c, d, e⟩)
    (fun r => ((((r.span, r.capacity), r.minCapacity), r.maxCapacity), r.weight))
    fun _ => rfl

def region : CType Region :=
  ((((((((((hdr.snoc ((u8.array kstepShmSdFlagLen).array kstepShmSdFlags)).snoc
    (cpu.array kstepShmCpus)).snoc (task.array kstepShmTasks)).snoc
    (cgroup.array kstepShmCgroups)).snoc (domain.array kstepShmDomains)).snoc
    (group.array kstepShmGroups)).snoc (cfs.array kstepShmCpus)).snoc
    (entity.array kstepShmEntities)).snoc (rt.array kstepShmCpus)).snoc
    (rtEntity.array kstepShmTasks)).padded.view
    (fun ((((((((((a, b), c), d), e), f), g), h), i), j), k) => ⟨a, b, c, d, e, f, g, h, i, j, k⟩)
    (fun r => ((((((((((r.hdr, r.sdFlag), r.cpu), r.task), r.cgroup), r.domain), r.group), r.cfs),
      r.entity), r.rt), r.rtEntity))
    fun _ => rfl

theorem region_size : region.size = shmSize := rfl

/-- The decoder reads each member where the compiler puts it. -/
theorem region_get (b : List UInt8) : region.get b 0 = readRegion b := rfl

/-- Wherever the region lies in the guest's memory, whatever it holds and whatever was there before,
padding included: what the host copies out has the region's size and decodes as the region, and
storing it has changed nothing outside. -/
theorem stored_region_decodes (r : Region) (ram : List UInt8) (shm : ℕ)
    (h : shm + shmSize ≤ ram.length) :
    decodeBytes (((region.put r ram shm).drop shm).take shmSize) = decodeRegion r ∧
      (region.put r ram shm).length = ram.length ∧
        ∀ j, j < shm ∨ shm + shmSize ≤ j → byteAt (region.put r ram shm) j = byteAt ram j := by
  refine ⟨?_, region.length_put r ram shm, fun j hj => region.put_frame r ram shm j hj⟩
  have hlen : (((region.put r ram shm).drop shm).take shmSize).length = shmSize := by
    rw [List.length_take, List.length_drop, region.length_put]
    omega
  have hcopy : region.get (((region.put r ram shm).drop shm).take shmSize) 0 = r := by
    rw [← region_size, region.get_copy, region.get_put r ram shm h]
  rw [decodeBytes, decode, if_neg (not_lt.mpr hlen.ge), ← region_get, hcopy]

/-- The region as the driver allocates it, on a page of its own. -/
theorem stored_region_decodes_init :
    decodeBytes (((region.put (kstepShmInit someKernel).shm
      (List.replicate (4096 + shmSize) 255) 4096).drop 4096).take shmSize) =
        decodeRegion (kstepShmInit someKernel).shm :=
  (stored_region_decodes _ _ _ (by rw [List.length_replicate])).1

end KStep.Shm.CLayout
