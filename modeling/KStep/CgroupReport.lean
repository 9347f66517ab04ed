import KStep.CgroupSession
import KStep.ShmLossless

/-!
# The session's cgroups as the host sees them

While a session stays within the table and the records, every cgroup it has made has a row that
decodes to the cgroup's path, and every live task is decoded with the path of its own cgroup. A path
that does not fit has no row, and its tasks are shown in the root.
-/

namespace KStep.Shm

open RowTable Runs

/-- `cgroup_path` fails exactly when a path and its NUL do not fit the buffer. -/
def Kernel.PathsFit (k : Kernel) : Prop :=
  ∀ path : List UInt8, 0 ∉ path → (pathLen ≤ path.length → k.cgroupPath path = none) ∧
    (path.length < pathLen → ∃ buf, k.cgroupPath path = some buf ∧ cBytes buf.toList = path)

/-- What an update finds in the kernel when a line of session `s` is over: of the cgroups the root
and the session's are online, and every live task is in the cgroup it is attached to. -/
structure Shows (s : CgroupSession) (now : Session) : Prop where
  ncpus : now.ncpus < kstepShmCpus
  cgroups : ∃ root, now.root = some root ∧
    ((root.preorder.filter (·.online)).map (·.path)).Perm (rootPath :: s.cgroups)
  length : now.tasks.length = s.tasks.length
  tasks : ∀ (i : ℕ) (task : AttachedTask) (p : TaskStruct), s.tasks[i]? = some task →
    now.tasks[i]? = some p →
      (p.exitState = 0 ↔ task.live = true) ∧ (task.live = true → p.cgroup = task.cgroup)

/-- Every cgroup of the session is reported as itself, and every live task in its own. -/
structure CgroupsReported (s : CgroupSession) (r : Region) (st : State) : Prop where
  cgroup : ∀ path ∈ s.cgroups, ∃ row ∈ r.cgroups, cBytes row.path.toList = path ∧
    ∃ g ∈ st.groups, g = decodeCgroup row ∧ g.path = fromUtf8Lossy path
  task : ∀ (i : ℕ) (task : AttachedTask), s.tasks[i]? = some task → task.live = true →
    ∃ t ∈ st.tasks, t.task.toNat = i + 1 ∧ t.cgroup = fromUtf8Lossy task.cgroup

variable {k : Kernel} {s : CgroupSession} {now : Session} {m m' : Module} {r : Region}
  {path : List UInt8}

def rowPath (row : CgroupRow) : List UInt8 := cBytes row.path.toList

/-- The rows of cgroups whose paths all fit carry those paths. -/
theorem reportedRows_path (hk : k.PathsFit) {l : List Cgroup}
    (hl : ∀ pos ∈ l, pos.online = true → pos.path.length < pathLen ∧ 0 ∉ pos.path) :
    (l.filterMap (reportedRow k)).map rowPath = (l.filter (·.online)).map (·.path) := by
  induction l with
  | nil => rfl
  | cons pos l ih =>
      have hrest := ih fun q hq => hl q (List.mem_cons_of_mem _ hq)
      by_cases honline : pos.online = true
      · obtain ⟨hlen, hzero⟩ := hl pos List.mem_cons_self honline
        obtain ⟨buf, hbuf, hpath⟩ := (hk pos.path hzero).2 hlen
        have hrow : reportedRow k pos = some (cgroupRow k pos buf) := by
          rw [reportedRow, if_pos honline, hbuf, Option.map_some]
        rw [List.filterMap_cons_some hrow, List.map_cons, hrest, List.filter_cons_of_pos honline,
          List.map_cons]
        exact congrArg (· :: _) hpath
      · have hrow : reportedRow k pos = none := if_neg honline
        rw [List.filterMap_cons_none hrow, hrest, List.filter_cons_of_neg honline]

/-- The paths of the rows an update leaves are the root's and the session's. -/
theorem Filled.cgroup_paths (hk : k.PathsFit) (hs : s.Fitting) (hnow : Shows s now)
    (h : Filled k now r) : (r.cgroups.map rowPath).Perm (rootPath :: s.cgroups) := by
  obtain ⟨root, hroot, hperm⟩ := hnow.cgroups
  have hpaths : ∀ pos ∈ root.preorder, pos.online = true →
      pos.path.length < pathLen ∧ 0 ∉ pos.path := by
    intro pos hpos honline
    have hmem := hperm.mem_iff.mp
      (List.mem_map_of_mem (List.mem_filter.mpr ⟨hpos, by simpa using honline⟩))
    rcases List.mem_cons.mp hmem with hroot | hmem
    · rw [hroot]
      decide
    · exact hs.paths pos.path hmem
  have hrows := reportedRows_path hk hpaths
  have hcount : (now.cgroupRows k).length ≤ kstepShmCgroups := by
    have hlen := congrArg List.length hrows
    rw [List.length_map, hperm.length_eq, List.length_cons] at hlen
    rw [Session.cgroupRows, hroot, hlen]
    exact hs.count
  rw [h.cgroup, List.take_of_length_le hcount, Session.cgroupRows, hroot, hrows]
  exact hperm

/-- A task in a cgroup that has a row is shown in it. -/
theorem groupPath_cgroupIndex {rows : List CgroupRow} {p : TaskStruct} {buf : Vector UInt8 pathLen}
    (hbuf : k.cgroupPath p.cgroup = some buf) (hpath : cBytes buf.toList = p.cgroup)
    (hmem : p.cgroup ∈ rows.map rowPath) (hlen : rows.length ≤ kstepShmCgroups) :
    groupPath (rows.map decodeCgroup) (UInt32.ofNat (cgroupIndex k rows p)) =
      fromUtf8Lossy p.cgroup := by
  obtain ⟨row, hrow, hrowPath⟩ := List.mem_map.mp hmem
  simp only [cgroupIndex, hbuf, hpath]
  rcases hidx : rows.findIdx? (fun row => cBytes row.path.toList == p.cgroup) with _ | g
  · rw [List.findIdx?_eq_none_iff] at hidx
    have hne := hidx row hrow
    rw [beq_eq_false_iff_ne] at hne
    exact absurd hrowPath hne
  · obtain ⟨hlt, heq, -⟩ := List.findIdx?_eq_some_iff_getElem.mp hidx
    have hg : (UInt32.ofNat g).toNat = g :=
      toNat_ofNat (hlt.le.trans (hlen.trans (by decide)))
    rw [hidx, Option.getD_some, groupPath, hg, List.getElem?_map, List.getElem?_eq_getElem hlt]
    simp only [Option.map_some, decodeCgroup, cstr]
    rw [beq_iff_eq.mp heq]

theorem Filled.cgroupsReported (hk : k.PathsFit) (hs : s.Fitting) (hnow : Shows s now)
    (h : Filled k now r) {domains : List Domain} : CgroupsReported s r (stateOf r domains) := by
  have hperm := h.cgroup_paths hk hs hnow
  have hlen : r.cgroups.length ≤ kstepShmCgroups := (length_cgroups h.ncgroups).trans_le h.ncgroups
  constructor
  · intro path hpath
    obtain ⟨row, hrow, hrowPath⟩ := List.mem_map.mp
      (hperm.mem_iff.mpr (List.mem_cons_of_mem _ hpath))
    refine ⟨row, hrow, hrowPath, decodeCgroup row, List.mem_map_of_mem hrow, rfl, ?_⟩
    rw [← hrowPath]
    rfl
  · intro i task htask hlive
    have hlt : i < now.tasks.length := hnow.length ▸ (List.getElem?_eq_some_iff.mp htask).1
    have hp := List.getElem?_eq_getElem hlt
    obtain ⟨hexit, hcgroup⟩ := hnow.tasks i task _ htask hp
    have hmem : (now.tasks[i], i + 1) ∈ now.live := by
      refine List.mem_filter.mpr ⟨?_, by simp [isLive, hexit.mpr hlive]⟩
      rw [Nat.add_comm, List.mk_add_mem_zipIdx_iff_getElem?]
      exact hp
    have hfits : now.tasks.length ≤ kstepShmTasks := hnow.length.trans_le hs.tasks
    have hknown := hs.attached task (List.mem_of_getElem? htask) hlive
    rw [← hcgroup hlive] at hknown ⊢
    have hfit : now.tasks[i].cgroup.length < pathLen ∧ 0 ∉ now.tasks[i].cgroup := by
      rcases List.mem_cons.mp hknown with hroot | hmade
      · rw [hroot]
        decide
      · exact hs.paths _ hmade
    obtain ⟨buf, hbuf, hpath⟩ := (hk _ hfit.2).2 hfit.1
    refine ⟨decodeTask (r.cgroups.map decodeCgroup)
      (taskRow now.tasks[i] (i + 1) (cgroupIndex k r.cgroups now.tasks[i])), ?_, ?_, ?_⟩
    · refine List.mem_map_of_mem ?_
      rw [h.task]
      exact List.mem_map_of_mem hmem
    · exact (live_number hfits hmem).2
    · exact groupPath_cgroupIndex hbuf hpath (hperm.mem_iff.mpr hknown) hlen

theorem kstepShmUpdate_layout (h : kstepShmUpdate k m now = some m') :
    m'.shm.hdr.layout = m.shm.hdr.layout := by
  simp only [kstepShmUpdate, bind, Option.bind_eq_some_iff] at h
  obtain ⟨_, -, _, -, _, -, _, -, _, -, _, -, h⟩ := h
  cases h
  rfl

/-- In every session whose `cgroup-create` lines make cgroups with paths of at most 39 bytes, and
no more than 15 at a time, every update reports every live cgroup under its path and every live
task in the cgroup it is attached to. -/
theorem cgroups_reported (k : Kernel) (hk : k.PathsFit) (l : List CgroupLabel) (s : CgroupSession)
    (h : run CgroupSession.step CgroupSession.boot l = some s)
    (hl : Always CgroupSession.step CgroupFits CgroupSession.boot l) (earlier : List Session)
    (m : Module) (hm : run (kstepShmUpdate k) (kstepShmInit k) earlier = some m) (now : Session)
    (hnow : Shows s now) :
    ∃ m' st, kstepShmUpdate k m now = some m' ∧ decodeRegion m'.shm = .ok st ∧
      CgroupsReported s m'.shm st := by
  have hs := run_fitting h hl
  have hlayout : m.shm.hdr.layout = kstepShmLayout := by
    refine run_invariant (I := fun m => m.shm.hdr.layout = kstepShmLayout) ?_ hm rfl
    intro u _ u' hstep hu
    exact (kstepShmUpdate_layout hstep).trans hu
  obtain ⟨m', hupdate, hfilled⟩ :=
    exists_kstepShmUpdate (k := k) hlayout ⟨hnow.length.trans_le hs.tasks, hnow.ncpus⟩
  obtain ⟨domains, hdecode, -⟩ := hfilled.decodeRegion_eq
  exact ⟨m', _, hupdate, hdecode, hfilled.cgroupsReported hk hs hnow⟩

theorem cBytes_strscpyBytes {n : ℕ} (hlen : path.length < n) (hzero : 0 ∉ path) :
    cBytes (strscpyBytes n path).toList = path := by
  have hall : ∀ b ∈ path, decide (b ≠ 0) = true := by
    intro b hb
    rw [decide_eq_true_eq]
    rintro rfl
    exact hzero hb
  have hpath : cBytes path = path := List.takeWhile_eq_self_iff.mpr hall
  have hlist : (strscpyBytes n path).toList = path ++ List.replicate (n - path.length) 0 := by
    refine List.ext_getElem (by simp; omega) fun i hi _ => ?_
    simp only [strscpyBytes, hpath, Vector.getElem_toList, Vector.getElem_ofFn]
    by_cases hi' : i < path.length
    · rw [List.getElem_append_left hi', if_pos (by omega), List.getD,
        List.getElem?_eq_getElem hi', Option.getD_some]
    · rw [List.getElem_append_right (not_lt.mp hi'), List.getElem_replicate, List.getD,
        List.getElem?_eq_none (not_lt.mp hi'), Option.getD_none, ite_self]
  rw [hlist, cBytes, List.takeWhile_append_of_pos hall]
  rcases n - path.length with _ | j
  · simp
  · simp [List.replicate_succ]

theorem someKernel_pathsFit : someKernel.PathsFit := by
  intro path hzero
  constructor
  · intro hlen
    exact if_neg (not_lt.mpr hlen)
  · intro hlen
    exact ⟨_, if_pos hlen, cBytes_strscpyBytes hlen hzero⟩

def plainCgroupAnswers : CgroupAnswers := ⟨Cli.plainView, 0, false, none⟩

def cgroupLine (text : String) : CgroupLabel :=
  .line (text.toList.map Char.toUInt8) plainCgroupAnswers

/-- The machine with one live task in the cgroup `path`, which is the only one under the root. -/
def oneCgroup (path : List UInt8) : Session :=
  { someSession with
    tasks := [{ someTask 1 0 with cgroup := path }]
    root := some (.node ⟨[47], true, some ⟨false, 0, fun _ => none⟩, some 6⟩
      [.node ⟨path, true, none, none⟩ []]) }

theorem oneCgroup_shows (path : List UInt8) (more : Bool) :
    Shows ⟨[path], [⟨true, path⟩], more⟩ (oneCgroup path) := by
  have hncpus : someSession.ncpus < kstepShmCpus := by decide
  refine ⟨hncpus, ⟨_, rfl, List.Perm.refl _⟩, rfl, fun i task p htask hp => ?_⟩
  rcases i with _ | i
  · cases htask
    cases hp
    exact ⟨iff_of_true rfl rfl, fun _ => rfl⟩
  · cases htask

def longName : String := "/cgroup-with-a-name-of-forty-one-bytes-ab"

def longPath : List UInt8 := longName.toList.map Char.toUInt8

theorem longPath_rows : (oneCgroup longPath).cgroupRows someKernel =
    [cgroupRow someKernel ⟨[47], true, some ⟨false, 0, fun _ => none⟩, some 6⟩
      (strscpyBytes pathLen rootPath)] := by
  have hlong : someKernel.cgroupPath longPath = none :=
    (someKernel_pathsFit longPath (by decide)).1 (by decide)
  have hroot : someKernel.cgroupPath [47] = some (strscpyBytes pathLen rootPath) := by
    have hlt : rootPath.length < pathLen := by decide
    change (if rootPath.length < pathLen then some (strscpyBytes pathLen rootPath) else none) = _
    rw [if_pos hlt]
  simp [Session.cgroupRows, oneCgroup, Css.preorder, Css.preorders, reportedRow, hlong, hroot]

/-- A path that the parser admits and the record does not hold: the cgroup has no row. -/
theorem long_path_unreported : ∃ s now m st,
    run CgroupSession.step CgroupSession.boot
      [cgroupLine ("cgroup-create " ++ longName), cgroupLine ("create " ++ longName)] = some s ∧
    Shows s now ∧ kstepShmUpdate someKernel (kstepShmInit someKernel) now = some m ∧
    decodeRegion m.shm = .ok st ∧ ¬ CgroupsReported s m.shm st := by
  have hrun : run CgroupSession.step CgroupSession.boot
      [cgroupLine ("cgroup-create " ++ longName), cgroupLine ("create " ++ longName)] =
    some ⟨[longPath], [⟨true, longPath⟩], true⟩ := rfl
  have hncpus : someSession.ncpus < kstepShmCpus := by decide
  obtain ⟨m, hupdate, hfilled⟩ := exists_kstepShmUpdate (k := someKernel)
    (m := kstepShmInit someKernel) (s := oneCgroup longPath) rfl ⟨by decide, hncpus⟩
  obtain ⟨domains, hdecode, -⟩ := hfilled.decodeRegion_eq
  refine ⟨_, _, m, _, hrun, oneCgroup_shows longPath true, hupdate, hdecode, fun hreported => ?_⟩
  obtain ⟨row, hrow, hpath, -⟩ := hreported.cgroup longPath List.mem_cons_self
  rw [hfilled.cgroup, longPath_rows] at hrow
  cases List.mem_singleton.mp (List.mem_of_mem_take hrow)
  have hroot : cBytes (strscpyBytes pathLen rootPath).toList = rootPath :=
    cBytes_strscpyBytes (by decide) (by decide)
  have heq : rootPath = longPath := hroot.symm.trans hpath
  exact absurd heq (by decide)

theorem cgroups_reported_one_cgroup : ∃ s m st,
    run CgroupSession.step CgroupSession.boot
      [cgroupLine "cgroup-create /a", cgroupLine "create /a"] = some s ∧
    kstepShmUpdate someKernel (kstepShmInit someKernel) (oneCgroup [47, 97]) = some m ∧
    decodeRegion m.shm = .ok st ∧ CgroupsReported s m.shm st := by
  have hmake : CgroupSession.step CgroupSession.boot (cgroupLine "cgroup-create /a") =
    some ⟨[[47, 97]], [], true⟩ := rfl
  have htask : CgroupSession.step ⟨[[47, 97]], [], true⟩ (cgroupLine "create /a") =
    some ⟨[[47, 97]], [⟨true, [47, 97]⟩], true⟩ := rfl
  have hfits : CgroupFits CgroupSession.boot (cgroupLine "cgroup-create /a") := by
    have hline : Cli.runLine (CgroupSession.boot.view plainCgroupAnswers)
        (lineText ("cgroup-create /a".toList.map Char.toUInt8)) =
      some (.ok (.cgroupCreate ['a'])) := rfl
    simp only [CgroupFits, cgroupLine, hline]
    decide
  have hlines : Always CgroupSession.step CgroupFits CgroupSession.boot
      [cgroupLine "cgroup-create /a", cgroupLine "create /a"] := by
    simp only [Always, hmake, htask]
    exact ⟨hfits, trivial, trivial⟩
  have hrun : run CgroupSession.step CgroupSession.boot
      [cgroupLine "cgroup-create /a", cgroupLine "create /a"] =
    some ⟨[[47, 97]], [⟨true, [47, 97]⟩], true⟩ := rfl
  obtain ⟨m, st, hupdate, hdecode, hreported⟩ := cgroups_reported someKernel someKernel_pathsFit _ _
    hrun hlines [] _ rfl (oneCgroup [47, 97]) (oneCgroup_shows _ true)
  exact ⟨_, m, st, hrun, hupdate, hdecode, hreported⟩

end KStep.Shm
