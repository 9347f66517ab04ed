import KStep.ShmDomains

/-!
# The region after an update

The loops together: an update of a session that fits stores inside every table, and the counted rows
of the region are those of the test CPUs, the live tasks, the cgroups' entities and the domains.
-/

namespace KStep.Shm

open RowTable

def counted {R : Type} {cap : ℕ} (rows : Vector R cap) (n : UInt32) : List R :=
  rows.toList.take n.toNat

/-- The session fits the region: at most 64 numbered tasks and 31 test CPUs. -/
def Session.Fits (s : Session) : Prop := s.tasks.length ≤ kstepShmTasks ∧ s.ncpus < kstepShmCpus

def Session.built (s : Session) : List (ℕ × SchedDomain) := s.hierarchy.take kstepShmDomains

def Region.cgroups (r : Region) : List CgroupRow := counted r.cgroup r.hdr.ncgroups

structure Filled (k : Kernel) (s : Session) (r : Region) : Prop where
  layout : r.hdr.layout = kstepShmLayout
  ncpus : r.hdr.ncpus.toNat = s.ncpus
  cpus : s.ncpus ≤ kstepShmCpus
  ncgroups : r.hdr.ncgroups.toNat ≤ kstepShmCgroups
  ntasks : r.hdr.ntasks.toNat ≤ kstepShmTasks
  nentities : r.hdr.nentities.toNat ≤ kstepShmEntities
  nrtEntities : r.hdr.nrtEntities.toNat ≤ kstepShmTasks
  ndomains : r.hdr.ndomains.toNat ≤ kstepShmDomains
  ngroups : r.hdr.ngroups.toNat ≤ kstepShmGroups
  cpu : counted r.cpu r.hdr.ncpus = (List.range' 1 s.ncpus).map (cpuRow s)
  cfs : counted r.cfs r.hdr.ncpus = (List.range' 1 s.ncpus).map (cfsRow k s)
  rt : counted r.rt r.hdr.ncpus = (List.range' 1 s.ncpus).map (rtRow k s)
  cgroup : r.cgroups = (s.cgroupRows k).take kstepShmCgroups
  task : counted r.task r.hdr.ntasks = taskRows k r.cgroups (s.tasks.zipIdx 1)
  entity : ∃ rows, counted r.entity r.hdr.nentities =
      rows ++ entityRows k r.cgroups (s.tasks.zipIdx 1) ∧
    ∀ e ∈ rows, e.task = 0 ∧ e.cgroup.toNat < r.hdr.ncgroups.toNat
  rtEntity : ∃ rtPick, counted r.rtEntity r.hdr.nrtEntities =
    rtEntityRows s rtPick (s.tasks.zipIdx 1)
  domain : counted r.domain r.hdr.ndomains = placed k s 0 s.built
  group : counted r.group r.hdr.ngroups =
    (runs kstepShmGroups (s.built.map (·.2.groupRows))).flatten

variable {k : Kernel} {s : Session} {m : Module} {r : Region}

/-- No entity of a cgroup crowds out a task: there is room for 64 beside them. -/
theorem GroupEntities.room {out : Table CgroupRow kstepShmCgroups}
    {ents : Table EntityRow kstepShmEntities} (h : GroupEntities s.ncpus out ents)
    (hcpus : s.ncpus < kstepShmCpus) : ents.n + kstepShmTasks ≤ kstepShmEntities := by
  have hmul : s.ncpus * out.n ≤ kstepShmCpus * kstepShmCgroups := Nat.mul_le_mul hcpus.le out.le
  have hcount := h.count
  simp only [kstepShmEntities, kstepShmCpus, kstepShmCgroups] at hmul ⊢
  omega

theorem counted_recs {R : Type} {cap : ℕ} (t : Table R cap) (hcap : cap ≤ 1024) :
    counted t.rows (UInt32.ofNat t.n) = t.recs := by
  rw [counted, toNat_ofNat (t.le.trans hcap), Table.recs]

theorem exists_kstepShmUpdate (hlayout : m.shm.hdr.layout = kstepShmLayout) (hfits : s.Fits) :
    ∃ m', kstepShmUpdate k m s = some m' ∧ Filled k s m'.shm := by
  obtain ⟨htasks, hcpus⟩ := hfits
  obtain ⟨out, ents, hcgroups, hents⟩ := exists_shmCollectCgroups k s m.entities
  obtain ⟨q, hq, hcpu, hcfs, hrt⟩ := exists_writeCpus (k := k) (s := s) hcpus.le
    ⟨m.shm.cpu, m.shm.cfs, m.shm.rt, Vector.replicate kstepShmCpus none⟩
  have hlen : (s.tasks.zipIdx 1).length ≤ kstepShmTasks := by simpa using htasks
  have hroom : ents.n + (s.tasks.zipIdx 1).length ≤ kstepShmEntities :=
    (Nat.add_le_add_left hlen _).trans (hents.room hcpus)
  obtain ⟨t, ht, hadded⟩ := exists_writeTasks k s out.recs q.rtPick (s.tasks.zipIdx 1)
    ⟨Table.fresh m.shm.task, ents, Table.fresh m.shm.rtEntity⟩ (by simpa using htasks) hroom
    (by simpa using htasks)
  obtain ⟨cgroupRows, hcgroupCopy, hcgroupRows⟩ :=
    exists_copy m.shm.cgroup out.rows out.le
  obtain ⟨entRows, hentCopy, hentRows⟩ :=
    exists_copy m.shm.entity t.entity.rows t.entity.le
  obtain ⟨⟨domains, groups⟩, hdomains, hplaced, hruns⟩ :=
    exists_shmCollectDomains k s m.shm.domain m.shm.group
  have hncpus := toNat_ofNat (hcpus.le.trans (by decide : kstepShmCpus ≤ 1024))
  have hncgroups := toNat_ofNat (out.le.trans (by decide : kstepShmCgroups ≤ 1024))
  have hntasks := toNat_ofNat (t.task.le.trans (by decide : kstepShmTasks ≤ 1024))
  have hnentities := toNat_ofNat (t.entity.le.trans (by decide : kstepShmEntities ≤ 1024))
  have hnrt := toNat_ofNat (t.rtEntity.le.trans (by decide : kstepShmTasks ≤ 1024))
  have hndomains := toNat_ofNat (domains.le.trans (by decide : kstepShmDomains ≤ 1024))
  have hngroups := toNat_ofNat (groups.le.trans (by decide : kstepShmGroups ≤ 1024))
  refine ⟨_, by
    simp only [kstepShmUpdate, hcgroups, hq, ht, hcgroupCopy, hentCopy, hdomains, bind,
      Option.bind, pure]
    rfl, ?_⟩
  have hcgroupRecs : counted cgroupRows (UInt32.ofNat out.n) = out.recs := by
    rw [counted, hncgroups, hcgroupRows, Table.recs]
  have hentRecs : counted entRows (UInt32.ofNat t.entity.n) = t.entity.recs := by
    rw [counted, hnentities, hentRows, Table.recs]
  constructor
  · exact hlayout
  · exact hncpus
  · exact hcpus.le
  · exact hncgroups.trans_le out.le
  · exact hntasks.trans_le t.task.le
  · exact hnentities.trans_le t.entity.le
  · exact hnrt.trans_le t.rtEntity.le
  · exact hndomains.trans_le domains.le
  · exact hngroups.trans_le groups.le
  · simpa only [counted, hncpus] using hcpu
  · simpa only [counted, hncpus] using hcfs
  · simpa only [counted, hncpus] using hrt
  · exact hcgroupRecs.trans (shmCollectCgroups_recs hcgroups)
  · have hrecs := hadded.task
    rw [Table.recs_fresh, List.nil_append] at hrecs
    simp only [Region.cgroups, hcgroupRecs]
    exact (counted_recs t.task (by decide)).trans hrecs
  · refine ⟨ents.recs, ?_, ?_⟩
    · simp only [Region.cgroups, hcgroupRecs]
      exact hentRecs.trans hadded.entity
    · simpa only [hncgroups] using hents.rows
  · have hrecs := hadded.rtEntity
    rw [Table.recs_fresh, List.nil_append] at hrecs
    exact ⟨q.rtPick, (counted_recs t.rtEntity (by decide)).trans hrecs⟩
  · exact (counted_recs domains (by decide)).trans hplaced
  · exact (counted_recs groups (by decide)).trans hruns

end KStep.Shm
