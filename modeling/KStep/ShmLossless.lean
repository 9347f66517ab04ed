import KStep.ShmRegion

/-!
# What is written is what is decoded

An update of any session that fits leaves a region that decodes, and the host sees in it every test
CPU, every live task under its class and every domain with its own groups.
-/

namespace KStep.Shm

open RowTable Runs

def numbers {T : Type} (task : T → UInt32) (l : List T) : List ℕ := l.map fun t => (task t).toNat

/-- What the host sees of a session in the decoded state of a region. -/
structure Reports (k : Kernel) (s : Session) (r : Region) (st : State) : Prop where
  cpus : numbers Cpu.cpu st.cpus = List.range' 1 s.ncpus
  cfs : numbers Cfs.cpu st.cfs = List.range' 1 s.ncpus
  rt : numbers Rt.cpu st.rt = List.range' 1 s.ncpus
  tasks : numbers Task.task st.tasks = s.live.map (·.2)
  order : (numbers Task.task st.tasks).Pairwise (· < ·)
  fair : ∀ e ∈ s.live, isFair k e = true →
    (numbers Entity.task st.entities).count e.2 = 1 ∧ e.2 ∉ numbers RtEntity.task st.rtEntities
  rtTask : ∀ e ∈ s.live, isRt e = true →
    (numbers RtEntity.task st.rtEntities).count e.2 = 1 ∧ e.2 ∉ numbers Entity.task st.entities
  cgroup : 0 < st.groups.length →
    (∀ t ∈ counted r.task r.hdr.ntasks, t.cgroup.toNat < st.groups.length) ∧
      ∀ e ∈ counted r.entity r.hdr.nentities, e.cgroup.toNat < st.groups.length
  consecutive : Consecutive 0 (counted r.domain r.hdr.ndomains) r.hdr.ngroups.toNat
  groups : st.domains.map (·.groups) =
    (runs kstepShmGroups (s.built.map (·.2.groupRows))).map (List.map decodeGroup)

variable {k : Kernel} {s : Session} {r : Region} {cgroups : List CgroupRow}

theorem live_pairwise (s : Session) : (s.live.map (·.2)).Pairwise (· < ·) := by
  have hall : ((s.tasks.zipIdx 1).map (·.2)).Pairwise (· < ·) := by
    rw [List.zipIdx_map_snd]
    exact List.pairwise_lt_range'
  exact hall.sublist (List.filter_sublist.map _)

theorem live_nodup (s : Session) : (s.live.map (·.2)).Nodup :=
  (live_pairwise s).imp fun h => h.ne

theorem live_number {e : TaskStruct × ℕ} (hfits : s.tasks.length ≤ kstepShmTasks)
    (he : e ∈ s.live) : 1 ≤ e.2 ∧ (UInt32.ofNat e.2).toNat = e.2 := by
  have hmem := List.mem_zipIdx (List.mem_of_mem_filter he)
  refine ⟨hmem.1, toNat_ofNat ?_⟩
  have := hmem.2.1
  simp only [kstepShmTasks] at hfits
  omega

def classNumbers (s : Session) (p : TaskStruct × ℕ → Bool) : List ℕ := (s.live.filter p).map (·.2)

theorem count_classNumbers {p : TaskStruct × ℕ → Bool} {e : TaskStruct × ℕ} (he : e ∈ s.live)
    (hp : p e = true) : (classNumbers s p).count e.2 = 1 :=
  List.count_eq_one_of_mem ((live_nodup s).sublist (List.filter_sublist.map _))
    (List.mem_map_of_mem (List.mem_filter.mpr ⟨he, hp⟩))

theorem not_mem_classNumbers {p : TaskStruct × ℕ → Bool} {e : TaskStruct × ℕ} (he : e ∈ s.live)
    (hp : p e = false) : e.2 ∉ classNumbers s p := by
  intro hmem
  obtain ⟨e', he', heq⟩ := List.mem_map.mp hmem
  obtain ⟨hlive, hp'⟩ := List.mem_filter.mp he'
  have hsame := List.inj_on_of_nodup_map (live_nodup s) hlive he heq
  rw [hsame, hp] at hp'
  cases hp'

theorem numbers_taskRows (hfits : s.tasks.length ≤ kstepShmTasks) :
    numbers TaskRow.task (taskRows k cgroups (s.tasks.zipIdx 1)) = s.live.map (·.2) := by
  rw [numbers, taskRows, List.map_map]
  exact List.map_congr_left fun e he => (live_number hfits he).2

theorem numbers_entityRows (k : Kernel) (cgroups : List CgroupRow)
    (hfits : s.tasks.length ≤ kstepShmTasks) :
    numbers EntityRow.task (entityRows k cgroups (s.tasks.zipIdx 1)) =
      classNumbers s (isFair k) := by
  rw [numbers, entityRows, List.map_map]
  exact List.map_congr_left fun e he => (live_number hfits (List.mem_of_mem_filter he)).2

theorem numbers_rtEntityRows (hfits : s.tasks.length ≤ kstepShmTasks)
    (rtPick : Vector (Option ℕ) kstepShmCpus) :
    numbers RtEntityRow.task (rtEntityRows s rtPick (s.tasks.zipIdx 1)) =
      classNumbers s isRt := by
  rw [numbers, rtEntityRows, List.map_map]
  exact List.map_congr_left fun e he => (live_number hfits (List.mem_of_mem_filter he)).2

theorem cgroupIndex_lt (hcgroups : 0 < cgroups.length) (p : TaskStruct) :
    cgroupIndex k cgroups p < cgroups.length := by
  unfold cgroupIndex
  split
  · exact hcgroups
  · rcases hidx : List.findIdx? _ cgroups with _ | g
    · exact hcgroups
    · exact (List.findIdx?_eq_some_iff_getElem.mp hidx).1

theorem table_counted {R T : Type} {cap : ℕ} {rows : Vector R cap} {n : UInt32} (h : n.toNat ≤ cap)
    (f : R → T) : table rows n f = .ok ((counted rows n).map f) :=
  if_pos h

theorem length_cgroups (h : r.hdr.ncgroups.toNat ≤ kstepShmCgroups) :
    r.cgroups.length = r.hdr.ncgroups.toNat := by
  simpa [Region.cgroups, counted] using h

theorem numbers_cpus {T : Type} {R : Type} (f : R → T) (row : ℕ → R) (cpu : T → UInt32)
    (hcpu : ∀ n, cpu (f (row n)) = UInt32.ofNat n) {n : ℕ} (hn : n ≤ kstepShmCpus) :
    numbers cpu (((List.range' 1 n).map row).map f) = List.range' 1 n := by
  rw [numbers, List.map_map, List.map_map]
  conv_rhs => rw [← List.map_id (List.range' 1 n)]
  refine List.map_congr_left fun i hi => ?_
  rw [List.mem_range'_1] at hi
  simp only [kstepShmCpus] at hn
  rw [Function.comp_apply, Function.comp_apply, hcpu, toNat_ofNat (by omega), id]

def stateOf (r : Region) (domains : List Domain) : State :=
  let groups := r.cgroups.map decodeCgroup
  { timestamp := r.hdr.timestamp
    eevdf := r.hdr.features &&& kstepShmEevdf != 0
    cpus := (counted r.cpu r.hdr.ncpus).map decodeCpu
    tasks := (counted r.task r.hdr.ntasks).map (decodeTask groups)
    groups
    domains
    cfs := (counted r.cfs r.hdr.ncpus).map decodeCfs
    entities := (counted r.entity r.hdr.nentities).map (decodeEntity groups)
    rt := (counted r.rt r.hdr.ncpus).map decodeRt
    rtEntities := (counted r.rtEntity r.hdr.nrtEntities).map decodeRtEntity }

theorem Filled.decodeRegion_eq (h : Filled k s r) :
    ∃ domains, decodeRegion r = .ok (stateOf r domains) ∧ domains.map (·.groups) =
      (runs kstepShmGroups (s.built.map (·.2.groupRows))).map (List.map decodeGroup) := by
  have hgroups : ((counted r.group r.hdr.ngroups).map decodeGroup).drop 0 =
      (runs (kstepShmGroups - 0) (s.built.map (·.2.groupRows))).flatten.map decodeGroup := by
    rw [List.drop_zero, h.group]
    rfl
  obtain ⟨domains, hdomains, hruns⟩ := exists_mapM_decodeDomain k s r
    (Nat.zero_le _) (Nat.zero_le _) hgroups
  have hncpus : r.hdr.ncpus.toNat ≤ kstepShmCpus := h.ncpus.trans_le h.cpus
  have hdomainRows : ((counted r.domain r.hdr.ndomains).map id).mapM
      (decodeDomain r ((counted r.group r.hdr.ngroups).map decodeGroup)) = .ok domains := by
    rw [List.map_id, h.domain]
    exact hdomains
  refine ⟨domains, ?_, hruns⟩
  simp only [decodeRegion, h.layout, ne_eq, not_true_eq_false, if_false, table_counted hncpus,
    table_counted h.ncgroups, table_counted h.ntasks, table_counted h.nentities,
    table_counted h.nrtEntities, table_counted h.ngroups, table_counted h.ndomains, hdomainRows,
    bind, Except.bind, pure, Except.pure]
  rfl

section Decoded

variable (hfits : s.Fits) (h : Filled k s r) (domains : List Domain)
include hfits h

theorem numbers_tasks : numbers Task.task (stateOf r domains).tasks = s.live.map (·.2) := by
  change numbers Task.task ((counted r.task r.hdr.ntasks).map _) = _
  rw [h.task, numbers, List.map_map]
  exact numbers_taskRows hfits.1

theorem numbers_rtEntities :
    numbers RtEntity.task (stateOf r domains).rtEntities = classNumbers s isRt := by
  obtain ⟨rtPick, hrtEntity⟩ := h.rtEntity
  change numbers RtEntity.task ((counted r.rtEntity r.hdr.nrtEntities).map _) = _
  rw [hrtEntity, numbers, List.map_map]
  exact numbers_rtEntityRows hfits.1 rtPick

/-- Besides the fair tasks the entity table has only numbers that are no task's. -/
theorem numbers_entities : ∃ l, numbers Entity.task (stateOf r domains).entities =
    l ++ classNumbers s (isFair k) ∧ ∀ n ∈ l, n = 0 := by
  obtain ⟨rows, hentity, hrows⟩ := h.entity
  refine ⟨numbers EntityRow.task rows, ?_, fun n hn => ?_⟩
  · change numbers Entity.task ((counted r.entity r.hdr.nentities).map _) = _
    rw [hentity, ← numbers_entityRows k r.cgroups hfits.1, numbers, List.map_map, numbers, numbers,
      ← List.map_append]
    rfl
  · obtain ⟨e, he, rfl⟩ := List.mem_map.mp hn
    rw [(hrows e he).1]
    rfl

theorem fair_reported {e : TaskStruct × ℕ} (he : e ∈ s.live) (hfair : isFair k e = true) :
    (numbers Entity.task (stateOf r domains).entities).count e.2 = 1 ∧
      e.2 ∉ numbers RtEntity.task (stateOf r domains).rtEntities := by
  have hrt : isRt e = false := by
    by_contra hrt
    rw [Bool.not_eq_false] at hrt
    exact absurd (hfair.symm.trans (isFair_of_isRt hrt)) (by simp)
  obtain ⟨l, hentities, hl⟩ := numbers_entities hfits h domains
  have hnumber := (live_number hfits.1 he).1
  have hnot : e.2 ∉ l := fun hmem => by have := hl _ hmem; omega
  rw [hentities, numbers_rtEntities hfits h, List.count_append, List.count_eq_zero_of_not_mem hnot,
    Nat.zero_add]
  exact ⟨count_classNumbers he hfair, not_mem_classNumbers he hrt⟩

theorem rt_reported {e : TaskStruct × ℕ} (he : e ∈ s.live) (hrt : isRt e = true) :
    (numbers RtEntity.task (stateOf r domains).rtEntities).count e.2 = 1 ∧
      e.2 ∉ numbers Entity.task (stateOf r domains).entities := by
  obtain ⟨l, hentities, hl⟩ := numbers_entities hfits h domains
  have hnumber := (live_number hfits.1 he).1
  rw [hentities, numbers_rtEntities hfits h, List.mem_append]
  refine ⟨count_classNumbers he hrt, ?_⟩
  rintro (hmem | hmem)
  · have := hl _ hmem
    omega
  · exact not_mem_classNumbers he (isFair_of_isRt hrt) hmem

end Decoded

theorem Filled.cgroup_lt (h : Filled k s r) (hpos : 0 < r.cgroups.length) :
    (∀ t ∈ counted r.task r.hdr.ntasks, t.cgroup.toNat < r.cgroups.length) ∧
      ∀ e ∈ counted r.entity r.hdr.nentities, e.cgroup.toNat < r.cgroups.length := by
  have hlen : r.cgroups.length = r.hdr.ncgroups.toNat := length_cgroups h.ncgroups
  have hindex (p : TaskStruct) :
      (UInt32.ofNat (cgroupIndex k r.cgroups p)).toNat < r.cgroups.length := by
    have hlt := cgroupIndex_lt (k := k) hpos p
    rw [toNat_ofNat (hlt.le.trans (hlen ▸ h.ncgroups.trans (by decide)))]
    exact hlt
  obtain ⟨rows, hentity, hrows⟩ := h.entity
  constructor
  · intro t ht
    rw [h.task] at ht
    obtain ⟨e, -, rfl⟩ := List.mem_map.mp ht
    exact hindex e.1
  · intro e he
    rw [hentity, List.mem_append] at he
    rcases he with he | he
    · exact hlen ▸ (hrows e he).2
    · obtain ⟨e', -, rfl⟩ := List.mem_map.mp he
      exact hindex e'.1

theorem Filled.consecutive (h : Filled k s r) :
    Consecutive 0 (counted r.domain r.hdr.ndomains) r.hdr.ngroups.toNat := by
  have hlen : (counted r.group r.hdr.ngroups).length = r.hdr.ngroups.toNat := by
    simpa [counted] using h.ngroups
  have hplaced := placed_consecutive (k := k) (s := s) (l := s.built) (Nat.zero_le kstepShmGroups)
  rw [h.domain, ← hlen, h.group]
  simpa using hplaced

/-- The decoder accepts what an update leaves, and reads the session off it. -/
theorem exists_decodeRegion (hfits : s.Fits) (h : Filled k s r) :
    ∃ st, decodeRegion r = .ok st ∧ Reports k s r st := by
  obtain ⟨domains, hdecode, hgroups⟩ := h.decodeRegion_eq
  have htasks := numbers_tasks hfits h domains
  have hlen : (stateOf r domains).groups.length = r.cgroups.length := List.length_map _
  refine ⟨stateOf r domains, hdecode, ?_, ?_, ?_, htasks, htasks ▸ live_pairwise s,
    fun _ => fair_reported hfits h domains, fun _ => rt_reported hfits h domains,
    fun hpos => ?_, h.consecutive, hgroups⟩
  · change numbers Cpu.cpu ((counted r.cpu r.hdr.ncpus).map decodeCpu) = _
    rw [h.cpu]
    exact numbers_cpus decodeCpu (cpuRow s) Cpu.cpu (fun _ => rfl) h.cpus
  · change numbers Cfs.cpu ((counted r.cfs r.hdr.ncpus).map decodeCfs) = _
    rw [h.cfs]
    exact numbers_cpus decodeCfs (cfsRow k s) Cfs.cpu (fun _ => rfl) h.cpus
  · change numbers Rt.cpu ((counted r.rt r.hdr.ncpus).map decodeRt) = _
    rw [h.rt]
    exact numbers_cpus decodeRt (rtRow k s) Rt.cpu (fun _ => rfl) h.cpus
  · rw [hlen] at hpos ⊢
    exact h.cgroup_lt hpos

def someKernel : Kernel where
  version := kernelVersion 6 14 0
  cgroupSched := true
  fairGroupSched := true
  cpusets := true
  smp := true
  rtGroupSched := true
  schedClassExt := false
  hz := 1000
  nrCpuIds := 3
  sdShareCpucapacity := 128
  sdFlags := []
  scaleLoadDown := (· / 1024)
  msecsToJiffies := UInt32.toUInt64
  cgroupPath := fun path => if path.length < pathLen then some (strscpyBytes pathLen path) else none

def someEntity : SchedEntity := ⟨1048576, 0, 0, 0, 0, 0, true, false, false, true, false, 0⟩

def someTask (addr : ℕ) (policy : UInt32) : TaskStruct :=
  ⟨addr, 0, 0, false, 1, policy, 0, 0, 2, someEntity, 0, true, true, [addr], [47]⟩

/-- One test CPU with a fair and a real-time task in the root cgroup, and a domain of two groups. -/
def someSession : Session where
  ncpus := 1
  jiffies := 5
  kstepJiffies := 5
  tasks := [someTask 1 0, someTask 2 1]
  rq := fun _ =>
    ⟨2, 3, 2, 1, 9, false, 1024, 1024, 0, 0, 0, 1, 1, true, 1, 50, 0, 0, 0, [[.task 2]]⟩
  smtMask := fun c => {c}
  domains := fun _ =>
    [⟨6, 0, [77, 67], 117, 2, 0, 16, 1, 4, {1}, ⟨2, 1024, 1024, 1024, 1⟩,
      [⟨4, 1024, 1024, 1024, 1⟩]⟩]
  root := some (.node ⟨[47], true, some ⟨false, 0, fun _ => none⟩, some 6⟩ [])

end KStep.Shm
