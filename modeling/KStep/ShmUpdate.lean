import KStep.RowTable
import KStep.Shm

/-!
# Filling the shared region

`kstep_shm_update` and the functions it calls, loop by loop. A result of `none` is a store outside a
table.
-/

namespace KStep.Shm

open RowTable

def kstepSeEligible : UInt32 := 1
def kstepSeDelayed : UInt32 := 2
def kstepSeOnRq : UInt32 := 4
def kstepSeCurr : UInt32 := 8
def kstepSePick : UInt32 := 16

def kstepRtOnRq : UInt32 := 1
def kstepRtCurr : UInt32 := 2
def kstepRtPick : UInt32 := 4

def flag (b : Bool) (bit : UInt32) : UInt32 := if b then bit else 0

def Kernel.hasEevdf (k : Kernel) : Bool := kernelVersion 6 6 0 ≤ k.version

def cBytes (s : List UInt8) : List UInt8 := s.takeWhile (· ≠ 0)

/-- `strscpy` into a zeroed buffer. -/
def strscpyBytes (n : ℕ) (s : List UInt8) : Vector UInt8 n :=
  Vector.ofFn fun i => if i.val + 1 < n then (cBytes s).getD i 0 else 0

def timeAfter (a b : UInt64) : Bool := (b - a).toInt64 < 0

def ticksUntil (deadline jiffies : UInt64) : UInt32 :=
  if timeAfter deadline jiffies then (deadline - jiffies).toUInt32 else 0

def shmSe (k : Kernel) (se : SchedEntity) : SeRow where
  weight := k.scaleLoadDown se.weight
  sumExecRuntime := se.sumExecRuntime
  vruntime := se.vruntime.toInt64
  deadline := if k.hasEevdf then se.deadline.toInt64 else 0
  slice := if k.hasEevdf then se.slice else 0
  lag := if k.hasEevdf then
      if se.onRq then se.avgVruntime.toInt64 - se.vruntime.toInt64 else se.vlag
    else 0
  flags := flag se.onRq kstepSeOnRq ||| flag se.isCurr kstepSeCurr |||
    flag (kernelVersion 6 12 0 ≤ k.version && se.schedDelayed) kstepSeDelayed |||
    flag (k.hasEevdf && se.onRq && se.eligible) kstepSeEligible |||
    flag (k.hasEevdf && se.onRq && se.isPick) kstepSePick

mutual

def RtSe.head : RtSe → Option ℕ
  | .task p => some p
  | .group active => RtSe.highest active

/-- The head of the first list that has one, through the groups. -/
def RtSe.highest : List (List RtSe) → Option ℕ
  | [] => none
  | [] :: queues => RtSe.highest queues
  | (se :: _) :: _ => se.head

end

def shmRtPick (rq : Rq) : Option ℕ :=
  if !rq.rtQueued || rq.rtNrRunning == 0 then none else RtSe.highest rq.active

def shmRtEntity (s : Session) (p : TaskStruct) (task : ℕ) (pick : Option ℕ) : RtEntityRow where
  task := UInt32.ofNat task
  cpu := p.cpu
  timeSlice := p.rtTimeSlice
  flags := flag p.rtOnRq kstepRtOnRq ||| flag ((s.rq p.cpu.toNat).curr == p.addr) kstepRtCurr |||
    flag (pick == some p.addr) kstepRtPick
  position := if p.rtOnList then UInt32.ofNat (p.rtList.takeWhile (· ≠ p.addr)).length else 0

def shmTg (k : Kernel) (cgrp : Cgroup) : Option TaskGroup := if k.cgroupSched then cgrp.tg else none

def groupEntity (k : Kernel) (cgroup cpu : ℕ) (se : SchedEntity) : EntityRow :=
  ⟨shmSe k se, 0, UInt32.ofNat cgroup, UInt32.ofNat cpu⟩

def shmGroupEntities (k : Kernel) (ncpus cgroup : ℕ) (tg : Option TaskGroup)
    (ents : Table EntityRow kstepShmEntities) : Option (Table EntityRow kstepShmEntities) :=
  match tg with
  | none => some ents
  | some tg =>
    if !k.fairGroupSched || !tg.hasParent then some ents
    else (List.range' 1 ncpus).foldlM (fun ents cpu => match tg.se cpu with
      | none => some ents
      | some se => ents.offer (groupEntity k cgroup cpu se)) ents

mutual

def Css.preorder : Css → List Cgroup
  | .node cgroup children => cgroup :: Css.preorders children

def Css.preorders : List Css → List Cgroup
  | [] => []
  | css :: rest => css.preorder ++ Css.preorders rest

end

/-- What `cpu.weight` shows of the shares, and 0 without the controller. -/
def cgroupWeight (k : Kernel) (tg : Option TaskGroup) : UInt32 :=
  match tg with
  | none => 0
  | some tg =>
    if !k.fairGroupSched || !tg.hasParent then 0
    else (min (max ((k.scaleLoadDown tg.shares * 100 + 512) / 1024) 1) 10000).toUInt32

def cgroupRow (k : Kernel) (pos : Cgroup) (path : Vector UInt8 pathLen) : CgroupRow where
  cpus := if k.cpusets then pos.cpuset.getD 0 else 0
  weight := cgroupWeight k (shmTg k pos)
  path := path

/-- The loop over the cgroups; the row zeroed for a path that does not fit stays out of use. -/
def collectCgroups (k : Kernel) (ncpus : ℕ) : List Cgroup → Table CgroupRow kstepShmCgroups →
    Table EntityRow kstepShmEntities →
    Option (Table CgroupRow kstepShmCgroups × Table EntityRow kstepShmEntities)
  | [], out, ents => some (out, ents)
  | pos :: rest, out, ents =>
    if out.n = kstepShmCgroups then some (out, ents)
    else if !pos.online then collectCgroups k ncpus rest out ents
    else match k.cgroupPath pos.path with
      | none => collectCgroups k ncpus rest out ents
      | some path => do
        let ents ← shmGroupEntities k ncpus out.n (shmTg k pos) ents
        let out ← out.push (cgroupRow k pos path)
        collectCgroups k ncpus rest out ents

def shmCollectCgroups (k : Kernel) (s : Session) (ents : Vector EntityRow kstepShmEntities) :
    Option (Table CgroupRow kstepShmCgroups × Table EntityRow kstepShmEntities) :=
  let out := Table.fresh (Vector.replicate kstepShmCgroups default)
  match s.root with
  | none => some (out, Table.fresh ents)
  | some root => collectCgroups k s.ncpus root.preorder out (Table.fresh ents)

def shmIdleCpu (s : Session) (cpu : ℕ) : Bool :=
  let rq := s.rq cpu
  rq.curr == rq.idle && rq.nrRunning == 0 && !rq.ttwuPending

/-- The scan for the first idle CPU and the first on an idle core, which ends it. -/
def idleScan (s : Session) : List ℕ → Option ℕ → Option ℕ × Option ℕ
  | [], firstIdle => (firstIdle, none)
  | c :: rest, firstIdle =>
    if !shmIdleCpu s c then idleScan s rest firstIdle
    else
      let firstIdle := firstIdle.or (some c)
      if (s.smtMask c).sort.all (shmIdleCpu s) then (firstIdle, some c)
      else idleScan s rest firstIdle

def balancer (k : Kernel) (s : Session) (sd : SchedDomain) : UInt32 :=
  let bal := sd.groupBalanceMask.sort
  let (firstIdle, idleCore) := idleScan s bal none
  let pick := if sd.flags &&& k.sdShareCpucapacity ≠ 0 then firstIdle else idleCore.or firstIdle
  UInt32.ofNat (pick.getD (bal.head?.getD k.nrCpuIds))

def domainBalanceIn (k : Kernel) (s : Session) (cpu : ℕ) (sd : SchedDomain) : UInt32 :=
  let busy := (s.rq cpu).curr != (s.rq cpu).idle
  let interval :=
    if busy then sd.balanceInterval * sd.busyFactor.toUInt64 else sd.balanceInterval
  let interval := k.msecsToJiffies interval.toUInt32
  let interval := if busy then interval - 1 else interval
  let interval := min (max interval 1) (k.hz / 10)
  ticksUntil (sd.lastBalance + interval) s.jiffies

def domainRow (k : Kernel) (s : Session) (cpu : ℕ) (sd : SchedDomain) (group ngroups : ℕ) :
    DomainRow where
  span := sd.span
  flags := sd.flags
  cpu := UInt32.ofNat cpu
  group := UInt32.ofNat group
  ngroups := UInt32.ofNat ngroups
  imbalancePct := sd.imbalancePct
  balanceInterval := sd.balanceInterval.toUInt32
  busyFactor := sd.busyFactor
  cacheNiceTries := sd.cacheNiceTries
  nrBalanceFailed := sd.nrBalanceFailed
  nextBalanceIn := domainBalanceIn k s cpu sd
  balancer := balancer k s sd
  name := strscpyBytes nameLen sd.name

def groupRow (sg : SchedGroup) : GroupRow where
  span := sg.span
  capacity := sg.capacity.toUInt32
  minCapacity := sg.minCapacity.toUInt32
  maxCapacity := sg.maxCapacity.toUInt32
  weight := sg.weight

/-- The records of a domain's ring of groups, the CPU's own first. -/
def SchedDomain.groupRows (sd : SchedDomain) : List GroupRow :=
  (sd.groups :: sd.moreGroups).map groupRow

abbrev DomainTables := Table DomainRow kstepShmDomains × Table GroupRow kstepShmGroups

def collectCpuDomains (k : Kernel) (s : Session) (cpu : ℕ) :
    List SchedDomain → DomainTables → Option DomainTables
  | [], t => some t
  | sd :: rest, (out, groups) =>
    if out.n = kstepShmDomains then some (out, groups)
    else do
      let (ngroups, groups') ← groups.fill sd.groupRows
      let out ← out.push (domainRow k s cpu sd groups.n ngroups)
      collectCpuDomains k s cpu rest (out, groups')

def shmCollectDomains (k : Kernel) (s : Session) (t : DomainTables) : Option DomainTables :=
  (List.range' 1 s.ncpus).foldlM (fun t cpu =>
    if t.1.n < kstepShmDomains then collectCpuDomains k s cpu (s.domains cpu) t else some t) t

def currNumber (tasks : List TaskStruct) (curr : ℕ) : ℕ :=
  (tasks.zipIdx 1).foldl (fun n (p, i) => if p.addr = curr then i else n) 0

def cpuRow (s : Session) (cpu : ℕ) : CpuRow :=
  let rq := s.rq cpu
  { cpu := UInt32.ofNat cpu
    curr := UInt32.ofNat (currNumber s.tasks rq.curr)
    idle := if rq.curr = rq.idle then 1 else 0
    capacity := rq.capacity
    freq := rq.freq
    nrRunning := rq.nrRunning
    nrSwitches := rq.nrSwitches
    nextBalanceIn := ticksUntil rq.nextBalance s.jiffies }

def cfsRow (k : Kernel) (s : Session) (cpu : ℕ) : CfsRow :=
  let rq := s.rq cpu
  { cpu := UInt32.ofNat cpu
    utilAvg := if k.smp then rq.utilAvg else 0
    loadAvg := if k.smp then rq.loadAvg else 0
    runnableAvg := if k.smp then rq.runnableAvg else 0
    hNrRunnable := if kernelVersion 6 13 0 ≤ k.version then rq.hNrRunnable else rq.hNrRunning }

def rtRow (k : Kernel) (s : Session) (cpu : ℕ) : RtRow :=
  let rq := s.rq cpu
  { cpu := UInt32.ofNat cpu
    nrRunning := rq.rtNrRunning
    highestPrio := rq.highestPrio
    throttled := if k.rtGroupSched then rq.rtThrottled else 0
    rtTime := if k.rtGroupSched then rq.rtTime else 0
    rtRuntime := if k.rtGroupSched then rq.rtRuntime else 0 }

structure CpuTables where
  cpu : Vector CpuRow kstepShmCpus
  cfs : Vector CfsRow kstepShmCpus
  rt : Vector RtRow kstepShmCpus
  rtPick : Vector (Option ℕ) kstepShmCpus

def writeCpu (k : Kernel) (s : Session) (t : CpuTables) (cpu : ℕ) : Option CpuTables := do
  let cpuRows ← write t.cpu (cpu - 1) (cpuRow s cpu)
  let cfsRows ← write t.cfs (cpu - 1) (cfsRow k s cpu)
  let rtRows ← write t.rt (cpu - 1) (rtRow k s cpu)
  let picks ← write t.rtPick (cpu - 1) (shmRtPick (s.rq cpu))
  return ⟨cpuRows, cfsRows, rtRows, picks⟩

def rtPolicy (policy : UInt32) : Bool := policy == 1 || policy == 2

def fairPolicy (k : Kernel) (policy : UInt32) : Bool :=
  policy == 0 || policy == 3 || k.schedClassExt && policy == 7

def idlePolicy (policy : UInt32) : Bool := policy == 5

/-- `enum kstep_shm_task_state`, from `on_cpu` and the state word. -/
def taskState (p : TaskStruct) : UInt32 :=
  if p.onCpu then 0 else if p.state = 0 then 1 else if p.state &&& 1 ≠ 0 then 2 else 3

/-- The row of a task's cgroup, or the first. -/
def cgroupIndex (k : Kernel) (cgroups : List CgroupRow) (p : TaskStruct) : ℕ :=
  match k.cgroupPath p.cgroup with
  | none => 0
  | some path =>
    (cgroups.findIdx? fun row => cBytes row.path.toList == cBytes path.toList).getD 0

def taskRow (p : TaskStruct) (task cgroup : ℕ) : TaskRow where
  task := UInt32.ofNat task
  state := taskState p
  cpu := p.cpu
  policy := p.policy
  nice := p.nice
  rtPriority := p.rtPriority
  cpus := p.cpusPtr
  sumExecRuntime := p.se.sumExecRuntime
  cgroup := UInt32.ofNat cgroup

def taskEntity (k : Kernel) (p : TaskStruct) (task cgroup : ℕ) : EntityRow :=
  ⟨shmSe k p.se, UInt32.ofNat task, UInt32.ofNat cgroup, p.cpu⟩

structure TaskTables where
  task : Table TaskRow kstepShmTasks
  entity : Table EntityRow kstepShmEntities
  rtEntity : Table RtEntityRow kstepShmTasks

def pickAt (s : Session) (rtPick : Vector (Option ℕ) kstepShmCpus) (cpu : ℕ) : Option ℕ :=
  if 1 ≤ cpu ∧ cpu ≤ s.ncpus then rtPick[cpu - 1]?.join else none

def writeMember (k : Kernel) (s : Session) (cgroup : ℕ)
    (rtPick : Vector (Option ℕ) kstepShmCpus) (t : TaskTables) (p : TaskStruct) (task : ℕ) :
    Option TaskTables :=
  if rtPolicy p.policy then do
    let rtEntity ← t.rtEntity.push (shmRtEntity s p task (pickAt s rtPick p.cpu.toNat))
    return { t with rtEntity }
  else if (fairPolicy k p.policy || idlePolicy p.policy) && t.entity.n < kstepShmEntities then do
    let entity ← t.entity.push (taskEntity k p task cgroup)
    return { t with entity }
  else some t

def writeTask (k : Kernel) (s : Session) (cgroups : List CgroupRow)
    (rtPick : Vector (Option ℕ) kstepShmCpus) (t : TaskTables) (e : TaskStruct × ℕ) :
    Option TaskTables :=
  if t.task.n < kstepShmTasks then
    if e.1.exitState ≠ 0 then some t
    else do
      let cgroup := cgroupIndex k cgroups e.1
      let t ← writeMember k s cgroup rtPick t e.1 e.2
      let task ← t.task.push (taskRow e.1 e.2 cgroup)
      return { t with task }
  else some t

structure Module where
  shm : Region
  entities : Vector EntityRow kstepShmEntities

def kstepShmUpdate (k : Kernel) (m : Module) (s : Session) : Option Module := do
  let (cgroups, entities) ← shmCollectCgroups k s m.entities
  let q ← (List.range' 1 s.ncpus).foldlM (writeCpu k s)
    ⟨m.shm.cpu, m.shm.cfs, m.shm.rt, Vector.replicate kstepShmCpus none⟩
  let t ← (s.tasks.zipIdx 1).foldlM (writeTask k s cgroups.recs q.rtPick)
    ⟨Table.fresh m.shm.task, entities, Table.fresh m.shm.rtEntity⟩
  let cgroupRows ← copy m.shm.cgroup cgroups.rows cgroups.n
  let entityRows ← copy m.shm.entity t.entity.rows t.entity.n
  let (domains, groups) ← shmCollectDomains k s
    (Table.fresh m.shm.domain, Table.fresh m.shm.group)
  return {
    entities := t.entity.rows
    shm := { m.shm with
      hdr := { m.shm.hdr with
        timestamp := s.kstepJiffies
        ncpus := UInt32.ofNat s.ncpus
        ntasks := UInt32.ofNat t.task.n
        ncgroups := UInt32.ofNat cgroups.n
        ndomains := UInt32.ofNat domains.n
        ngroups := UInt32.ofNat groups.n
        nentities := UInt32.ofNat t.entity.n
        nrtEntities := UInt32.ofNat t.rtEntity.n }
      cpu := q.cpu
      cfs := q.cfs
      rt := q.rt
      task := t.task.rows
      rtEntity := t.rtEntity.rows
      cgroup := cgroupRows
      entity := entityRows
      domain := domains.rows
      group := groups.rows } }

/-- The zeroed region with its layout, features and flag names. -/
def kstepShmInit (k : Kernel) : Module where
  entities := Vector.replicate _ default
  shm :=
    { hdr := { (default : Hdr) with
        layout := kstepShmLayout, features := if k.hasEevdf then kstepShmEevdf else 0 }
      sdFlag := Vector.ofFn fun bit => strscpyBytes _ ((k.sdFlags.getD bit []).drop 3)
      cpu := Vector.replicate _ default
      task := Vector.replicate _ default
      cgroup := Vector.replicate _ default
      domain := Vector.replicate _ default
      group := Vector.replicate _ default
      cfs := Vector.replicate _ default
      entity := Vector.replicate _ default
      rt := Vector.replicate _ default
      rtEntity := Vector.replicate _ default }

end KStep.Shm
