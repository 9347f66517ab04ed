import KStep.ShmUpdate

/-!
# What the loops of an update leave in the tables

One statement for each loop: that it stores inside its tables, and the rows it leaves behind those
already in use.
-/

namespace KStep.Shm

open RowTable

variable {k : Kernel} {s : Session} {ncpus : ℕ} {t : TaskTables}

/-- The loop over a cgroup's entities adds one row at most for each CPU. -/
theorem exists_shmGroupEntities (k : Kernel) (ncpus cgroup : ℕ) (tg : Option TaskGroup)
    (ents : Table EntityRow kstepShmEntities) :
    ∃ ents' rows, shmGroupEntities k ncpus cgroup tg ents = some ents' ∧
      ents'.recs = ents.recs ++ rows ∧ rows.length ≤ ncpus ∧
      ∀ e ∈ rows, e.task = 0 ∧ e.cgroup = UInt32.ofNat cgroup := by
  rcases tg with _ | tg
  · exact ⟨ents, [], rfl, by simp, Nat.zero_le _, by simp⟩
  simp only [shmGroupEntities]
  split_ifs with hroot
  · exact ⟨ents, [], rfl, by simp, Nat.zero_le _, by simp⟩
  obtain ⟨ents', hents, hrecs⟩ := ents.exists_foldlM_offer
    (fun cpu => (tg.se cpu).map (groupEntity k cgroup cpu)) (List.range' 1 ncpus)
  refine ⟨ents', _, ?_, hrecs, ?_, fun e he => ?_⟩
  · rw [← hents]
    congr 1
    funext ents cpu
    cases tg.se cpu <;> rfl
  · calc _ ≤ _ := List.length_take_le' _ _
      _ ≤ (List.range' 1 ncpus).length := List.length_filterMap_le _ _
      _ = ncpus := List.length_range'
  · obtain ⟨cpu, -, hrow⟩ := List.mem_filterMap.mp (List.mem_of_mem_take he)
    obtain ⟨se, -, rfl⟩ := Option.map_eq_some_iff.mp hrow
    exact ⟨rfl, rfl⟩

/-- Every entity so far is a cgroup's, in a row of the cgroup table, and each cgroup has at most one
for each CPU. -/
structure GroupEntities (ncpus : ℕ) (out : Table CgroupRow kstepShmCgroups)
    (ents : Table EntityRow kstepShmEntities) : Prop where
  count : ents.n ≤ ncpus * out.n
  rows : ∀ e ∈ ents.recs, e.task = 0 ∧ e.cgroup.toNat < out.n

theorem toNat_ofNat {n : ℕ} (h : n ≤ 1024) : (UInt32.ofNat n).toNat = n :=
  UInt32.toNat_ofNat_of_lt (by simp only [UInt32.size]; omega)

theorem exists_collectCgroups (l : List Cgroup) {out : Table CgroupRow kstepShmCgroups}
    {ents : Table EntityRow kstepShmEntities} (h : GroupEntities ncpus out ents) :
    ∃ out' ents', collectCgroups k ncpus l out ents = some (out', ents') ∧
      GroupEntities ncpus out' ents' := by
  induction l generalizing out ents with
  | nil => exact ⟨out, ents, rfl, h⟩
  | cons pos rest ih =>
      simp only [collectCgroups]
      split_ifs with hfull honline
      · exact ⟨out, ents, rfl, h⟩
      · exact ih h
      rcases k.cgroupPath pos.path with _ | path
      · exact ih h
      obtain ⟨ents', rows, hents, hrecs, hlen, hrows⟩ :=
        exists_shmGroupEntities k ncpus out.n (shmTg k pos) ents
      obtain ⟨out', hout, houtRecs⟩ := out.exists_push (lt_of_le_of_ne out.le hfull)
        (cgroupRow k pos path)
      have hn : out'.n = out.n + 1 := by
        rw [← out'.length_recs, houtRecs, List.length_append, out.length_recs]
        rfl
      simp only [hents, hout, bind, Option.bind]
      refine ih ⟨?_, fun e he => ?_⟩
      · rw [← ents'.length_recs, hrecs, List.length_append, ents.length_recs, hn, Nat.mul_succ]
        have := h.count
        omega
      · rw [hrecs, List.mem_append] at he
        rcases he with he | he
        · have := h.rows e he
          exact ⟨this.1, by omega⟩
        · obtain ⟨htask, hcgroup⟩ := hrows e he
          have hle : out.n ≤ 1024 := out.le.trans (by decide)
          rw [hcgroup, toNat_ofNat hle, hn]
          exact ⟨htask, Nat.lt_succ_self _⟩

theorem exists_shmCollectCgroups (k : Kernel) (s : Session)
    (ents : Vector EntityRow kstepShmEntities) :
    ∃ out' ents', shmCollectCgroups k s ents = some (out', ents') ∧
      GroupEntities s.ncpus out' ents' := by
  have hfresh (out : Vector CgroupRow kstepShmCgroups) :
      GroupEntities s.ncpus (Table.fresh out) (Table.fresh ents) :=
    ⟨Nat.zero_le _, fun e he => by simp at he⟩
  unfold shmCollectCgroups
  rcases s.root with _ | root
  · exact ⟨_, _, rfl, hfresh _⟩
  · exact exists_collectCgroups _ (hfresh _)

def reportedRow (k : Kernel) (pos : Cgroup) : Option CgroupRow :=
  if pos.online then (k.cgroupPath pos.path).map (cgroupRow k pos) else none

/-- The rows of the cgroups, in the order of the walk, without the table's limit. -/
def Session.cgroupRows (k : Kernel) (s : Session) : List CgroupRow :=
  match s.root with
  | none => []
  | some root => root.preorder.filterMap (reportedRow k)

theorem collectCgroups_recs {l : List Cgroup} {out out' : Table CgroupRow kstepShmCgroups}
    {ents ents' : Table EntityRow kstepShmEntities}
    (h : collectCgroups k ncpus l out ents = some (out', ents')) :
    out'.recs = out.recs ++ (l.filterMap (reportedRow k)).take (kstepShmCgroups - out.n) := by
  induction l generalizing out ents with
  | nil =>
      cases h
      simp
  | cons pos rest ih =>
      simp only [collectCgroups] at h
      split_ifs at h with hfull honline
      · cases h
        simp [hfull]
      · have hrow : reportedRow k pos = none := if_neg (by simpa using honline)
        rw [List.filterMap_cons_none hrow]
        exact ih h
      · have hrow : reportedRow k pos = (k.cgroupPath pos.path).map (cgroupRow k pos) :=
          if_pos (by simpa using honline)
        split at h
        · rename_i hpath
          rw [hpath, Option.map_none] at hrow
          rw [List.filterMap_cons_none hrow]
          exact ih h
        · rename_i path hpath
          rw [hpath, Option.map_some] at hrow
          obtain ⟨ents₁, -, h⟩ := Option.bind_eq_some_iff.mp h
          obtain ⟨out₁, hpush, h⟩ := Option.bind_eq_some_iff.mp h
          have hroom : out.n < kstepShmCgroups := lt_of_le_of_ne out.le hfull
          obtain ⟨_, hpush', hrecs⟩ := out.exists_push hroom (cgroupRow k pos path)
          cases hpush.symm.trans hpush'
          have hn : out₁.n = out.n + 1 := by
            rw [← out₁.length_recs, hrecs, List.length_append, out.length_recs]
            rfl
          have htake : kstepShmCgroups - out.n = kstepShmCgroups - out₁.n + 1 := by omega
          rw [ih h, hrecs, List.filterMap_cons_some hrow, htake, List.take_succ_cons,
            List.append_assoc, List.singleton_append]

theorem shmCollectCgroups_recs {ents : Vector EntityRow kstepShmEntities}
    {out : Table CgroupRow kstepShmCgroups} {ents' : Table EntityRow kstepShmEntities}
    (h : shmCollectCgroups k s ents = some (out, ents')) :
    out.recs = (s.cgroupRows k).take kstepShmCgroups := by
  simp only [shmCollectCgroups] at h
  unfold Session.cgroupRows
  rcases hroot : s.root with _ | root
  · rw [hroot] at h
    cases h
    simp
  · rw [hroot] at h
    simpa using collectCgroups_recs h

/-- The loop over the test CPUs leaves a row for each in the three tables. -/
theorem exists_writeCpus {n : ℕ} (hn : n ≤ kstepShmCpus) (q : CpuTables) :
    ∃ q', (List.range' 1 n).foldlM (writeCpu k s) q = some q' ∧
      q'.cpu.toList.take n = (List.range' 1 n).map (cpuRow s) ∧
      q'.cfs.toList.take n = (List.range' 1 n).map (cfsRow k s) ∧
      q'.rt.toList.take n = (List.range' 1 n).map (rtRow k s) := by
  induction n with
  | zero => exact ⟨q, rfl, by simp, by simp, by simp⟩
  | succ n ih =>
      obtain ⟨u, hu, hcpu, hcfs, hrt⟩ := ih (by omega)
      have hlt : n < kstepShmCpus := hn
      obtain ⟨cpu', hcpuWrite, hcpu'⟩ := exists_write u.cpu hlt (cpuRow s (1 + n))
      obtain ⟨cfs', hcfsWrite, hcfs'⟩ := exists_write u.cfs hlt (cfsRow k s (1 + n))
      obtain ⟨rt', hrtWrite, hrt'⟩ := exists_write u.rt hlt (rtRow k s (1 + n))
      obtain ⟨pick', hpickWrite, -⟩ := exists_write u.rtPick hlt
        (shmRtPick (s.rq (1 + n)))
      refine ⟨⟨cpu', cfs', rt', pick'⟩, ?_, ?_, ?_, ?_⟩
      · rw [List.range'_concat, List.foldlM_append, hu]
        simp only [Nat.one_mul, List.foldlM_cons, List.foldlM_nil, writeCpu,
          Nat.add_sub_cancel_left, hcpuWrite, hcfsWrite, hrtWrite, hpickWrite, bind, Option.bind,
          pure]
      · rw [hcpu', hcpu, List.range'_concat]
        simp
      · rw [hcfs', hcfs, List.range'_concat]
        simp
      · rw [hrt', hrt, List.range'_concat]
        simp

def isLive (e : TaskStruct × ℕ) : Bool := e.1.exitState == 0

def isFair (k : Kernel) (e : TaskStruct × ℕ) : Bool :=
  fairPolicy k e.1.policy || idlePolicy e.1.policy

def isRt (e : TaskStruct × ℕ) : Bool := rtPolicy e.1.policy

def Session.live (s : Session) : List (TaskStruct × ℕ) := (s.tasks.zipIdx 1).filter isLive

section Tasks

variable (k s) (cgroups : List CgroupRow) (rtPick : Vector (Option ℕ) kstepShmCpus)

def taskRows (l : List (TaskStruct × ℕ)) : List TaskRow :=
  (l.filter isLive).map fun e => taskRow e.1 e.2 (cgroupIndex k cgroups e.1)

def entityRows (l : List (TaskStruct × ℕ)) : List EntityRow :=
  ((l.filter isLive).filter (isFair k)).map fun e =>
    taskEntity k e.1 e.2 (cgroupIndex k cgroups e.1)

def rtEntityRows (l : List (TaskStruct × ℕ)) : List RtEntityRow :=
  ((l.filter isLive).filter isRt).map fun e =>
    shmRtEntity s e.1 e.2 (pickAt s rtPick e.1.cpu.toNat)

structure Added (t t' : TaskTables) (l : List (TaskStruct × ℕ)) : Prop where
  task : t'.task.recs = t.task.recs ++ taskRows k cgroups l
  entity : t'.entity.recs = t.entity.recs ++ entityRows k cgroups l
  rtEntity : t'.rtEntity.recs = t.rtEntity.recs ++ rtEntityRows s rtPick l

end Tasks

variable {cgroups : List CgroupRow} {rtPick : Vector (Option ℕ) kstepShmCpus} {t' u : TaskTables}
  {l l' : List (TaskStruct × ℕ)} {e : TaskStruct × ℕ}

theorem Added.trans (h : Added k s cgroups rtPick t u l) (h' : Added k s cgroups rtPick u t' l') :
    Added k s cgroups rtPick t t' (l ++ l') where
  task := by rw [h'.task, h.task, List.append_assoc]; simp [taskRows]
  entity := by rw [h'.entity, h.entity, List.append_assoc]; simp [entityRows]
  rtEntity := by rw [h'.rtEntity, h.rtEntity, List.append_assoc]; simp [rtEntityRows]

theorem Added.count (h : Added k s cgroups rtPick t t' l) :
    t'.task.n ≤ t.task.n + l.length ∧ t'.entity.n ≤ t.entity.n + l.length ∧
      t'.rtEntity.n ≤ t.rtEntity.n + l.length := by
  have htask := congrArg List.length h.task
  have hentity := congrArg List.length h.entity
  have hrtEntity := congrArg List.length h.rtEntity
  simp only [Table.length_recs, List.length_append, taskRows, entityRows, rtEntityRows,
    List.length_map] at htask hentity hrtEntity
  have hlive := List.length_filter_le isLive l
  have hfair := List.length_filter_le (isFair k) (l.filter isLive)
  have hrt := List.length_filter_le isRt (l.filter isLive)
  omega

theorem isFair_of_isRt (h : isRt e = true) : isFair k e = false := by
  simp only [isRt, rtPolicy, Bool.or_eq_true, beq_iff_eq] at h
  rcases h with h | h <;> simp [isFair, fairPolicy, idlePolicy, h]

/-- One round of the loop over the tasks. -/
theorem exists_writeTask (k : Kernel) (s : Session) (cgroups : List CgroupRow)
    (rtPick : Vector (Option ℕ) kstepShmCpus) (e : TaskStruct × ℕ)
    (htask : t.task.n < kstepShmTasks)
    (hentity : t.entity.n < kstepShmEntities) (hrt : t.rtEntity.n < kstepShmTasks) :
    ∃ t', writeTask k s cgroups rtPick t e = some t' ∧ Added k s cgroups rtPick t t' [e] := by
  unfold writeTask
  rw [if_pos htask]
  by_cases hlive : e.1.exitState = 0
  · have hlive' : isLive e = true := by simp [isLive, hlive]
    obtain ⟨task, hpush, htaskRecs⟩ := t.task.exists_push htask
      (taskRow e.1 e.2 (cgroupIndex k cgroups e.1))
    rw [if_neg (by simp [hlive])]
    unfold writeMember
    by_cases hclass : isRt e = true
    · obtain ⟨rtEntity, hrtPush, hrtRecs⟩ := t.rtEntity.exists_push hrt
        (shmRtEntity s e.1 e.2 (pickAt s rtPick e.1.cpu.toNat))
      have hpolicy : rtPolicy e.1.policy = true := hclass
      refine ⟨⟨task, t.entity, rtEntity⟩, ?_, ?_, ?_, ?_⟩
      · simp only [hpolicy, if_true, hrtPush, hpush, bind, Option.bind, pure]
      · simp [taskRows, hlive', htaskRecs]
      · simp [entityRows, hlive', isFair_of_isRt hclass]
      · simp [rtEntityRows, hlive', hclass, hrtRecs]
    · have hpolicy : rtPolicy e.1.policy = false := by simpa [isRt] using hclass
      simp only [hpolicy, Bool.false_eq_true, if_false]
      by_cases hfair : isFair k e = true
      · obtain ⟨entity, hentityPush, hentityRecs⟩ := t.entity.exists_push hentity
          (taskEntity k e.1 e.2 (cgroupIndex k cgroups e.1))
        have hfair' : (fairPolicy k e.1.policy || idlePolicy e.1.policy) = true := hfair
        refine ⟨⟨task, entity, t.rtEntity⟩, ?_, ?_, ?_, ?_⟩
        · simp only [hfair', hentity, decide_true, Bool.and_self, if_true, hentityPush, hpush, bind,
            Option.bind, pure]
        · simp [taskRows, hlive', htaskRecs]
        · simp [entityRows, hlive', hfair, hentityRecs]
        · simp [rtEntityRows, hlive', hclass]
      · have hfair' : (fairPolicy k e.1.policy || idlePolicy e.1.policy) = false := by
          simpa [isFair] using hfair
        refine ⟨⟨task, t.entity, t.rtEntity⟩, ?_, ?_, ?_, ?_⟩
        · simp only [hfair', Bool.false_and, Bool.false_eq_true, if_false, hpush, bind, Option.bind,
            pure]
        · simp [taskRows, hlive', htaskRecs]
        · simp [entityRows, hlive', hfair]
        · simp [rtEntityRows, hlive', hclass]
  · have hlive' : isLive e = false := by simp [isLive, hlive]
    rw [if_pos hlive]
    exact ⟨t, rfl, by simp [taskRows, hlive'], by simp [entityRows, hlive'],
      by simp [rtEntityRows, hlive']⟩

/-- The loop over the tasks: none is crowded out while all the tables have room. -/
theorem exists_writeTasks (k : Kernel) (s : Session) (cgroups : List CgroupRow)
    (rtPick : Vector (Option ℕ) kstepShmCpus) (l : List (TaskStruct × ℕ)) (t : TaskTables)
    (htask : t.task.n + l.length ≤ kstepShmTasks)
    (hentity : t.entity.n + l.length ≤ kstepShmEntities)
    (hrt : t.rtEntity.n + l.length ≤ kstepShmTasks) :
    ∃ t', l.foldlM (writeTask k s cgroups rtPick) t = some t' ∧
      Added k s cgroups rtPick t t' l := by
  induction l generalizing t with
  | nil => exact ⟨t, rfl, by simp [taskRows], by simp [entityRows], by simp [rtEntityRows]⟩
  | cons e l ih =>
      rw [List.length_cons] at htask hentity hrt
      obtain ⟨u, hu, hadded⟩ := exists_writeTask k s cgroups rtPick e
        (by omega : t.task.n < _) (by omega : t.entity.n < _) (by omega : t.rtEntity.n < _)
      have hcount := hadded.count
      rw [List.length_singleton] at hcount
      obtain ⟨t', ht', hrest⟩ := ih u (by omega) (by omega) (by omega)
      refine ⟨t', ?_, hadded.trans hrest⟩
      rw [List.foldlM_cons, hu]
      exact ht'

end KStep.Shm
