import KStep.ShmUpdate
import KStep.TaskTable

/-!
# The cgroups of a session

The lines that make and remove cgroups and put tasks into them. `cgroup-create` admits a path of up
to 47 bytes, and any number of cgroups; the record of the shared region holds 39 bytes of a path,
and its table 16 rows, one of them the root's. A session is kept within both by the condition
`CgroupFits` on its lines.
-/

namespace KStep.Shm

open Cli CString Runs

/-- A task of the session, with the path of the cgroup it is attached to. -/
structure AttachedTask where
  live : Bool
  cgroup : List UInt8

/-- The cgroups the session has made and not destroyed, `tasks[]`, and whether `run` reads another
line. -/
structure CgroupSession where
  cgroups : List (List UInt8)
  tasks : List AttachedTask
  more : Bool

/-- The kernel's part in a line: what `kstep_cgroup_create` or `kstep_cgroup_move_task` returns,
whether a cgroup is kept for another reason than the session's own, and the task of a `create` that
cannot be moved. -/
structure CgroupAnswers where
  base : CliView
  err : ℤ
  keeps : Bool
  refused : Option ℕ

inductive CgroupLabel
  | line (bytes : List UInt8) (answers : CgroupAnswers)
  | exited (p : ℕ)

def rootPath : List UInt8 := [47]

/-- The path a name leads to; an empty component and `.` lead nowhere. -/
def pathOf (name : List Char) : List UInt8 :=
  match (name.splitOn '/').filter fun part => part ≠ [] ∧ part ≠ ['.'] with
  | [] => rootPath
  | parts => parts.flatMap fun part => 47 :: part.map Char.toUInt8

def lineText (bytes : List UInt8) : List Char := (cBytes bytes).map Char.ofUInt8

/-- `path` is a cgroup above `q`. -/
def above (path q : List UInt8) : Bool := (path ++ [47]).isPrefixOf q

namespace CgroupSession

def view (s : CgroupSession) (x : CgroupAnswers) : CliView :=
  { x.base with
    ntasks := s.tasks.length
    exited := fun p => match s.tasks[p]? with
      | some task => !task.live
      | none => false
    cgroupExists := fun name => decide (pathOf name ∈ rootPath :: s.cgroups) }

/-- A cgroup is not removed while it, or one under it, holds a task or has children. -/
def busy (s : CgroupSession) (path : List UInt8) : Bool :=
  s.tasks.any (fun task => task.live && (task.cgroup == path || above path task.cgroup)) ||
    s.cgroups.any (above path)

def command (s : CgroupSession) (x : CgroupAnswers) : Command → Option CgroupSession
  | .create n path =>
      (fill (fun _ => ⟨true, (path.map pathOf).getD rootPath⟩) (createdTasks n path x.refused) 0
        s.tasks).map fun tasks => { s with tasks := tasks }
  | .cgroupCreate name =>
      some (if x.err = 0 then { s with cgroups := s.cgroups ++ [pathOf name] } else s)
  | .cgroupDestroy name =>
      some (if s.busy (pathOf name) || x.keeps then s
        else { s with cgroups := s.cgroups.filter (· ≠ pathOf name) })
  | .cgroupAttach name p =>
      some (if x.err = 0
        then { s with tasks := s.tasks.modify p fun task => { task with cgroup := pathOf name } }
        else s)
  | .exit => some { s with more := false }
  | _ => some s

def step (s : CgroupSession) : CgroupLabel → Option CgroupSession
  | .line bytes x =>
      if s.more then
        match runLine (s.view x) (lineText bytes) with
        | some (.ok c) => s.command x c
        | _ => some s
      else none
  | .exited p => some { s with tasks := s.tasks.modify p fun task => { task with live := false } }

def boot : CgroupSession := ⟨[], [], true⟩

end CgroupSession

/-- A cgroup that a `cgroup-create` makes has a path that fits the record, and a row is left in the
table. -/
def CgroupFits (s : CgroupSession) : CgroupLabel → Prop
  | .line bytes x => match runLine (s.view x) (lineText bytes) with
    | some (.ok (.cgroupCreate name)) =>
        x.err = 0 → (pathOf name).length < pathLen ∧ s.cgroups.length + 1 < kstepShmCgroups
    | _ => True
  | .exited _ => True

structure CgroupSession.Fitting (s : CgroupSession) : Prop where
  count : s.cgroups.length < kstepShmCgroups
  paths : ∀ path ∈ s.cgroups, path.length < pathLen ∧ 0 ∉ path
  attached : ∀ task ∈ s.tasks, task.live = true → task.cgroup ∈ rootPath :: s.cgroups
  tasks : s.tasks.length ≤ kstepShmTasks

variable {s s' : CgroupSession} {x : CgroupAnswers} {name : List Char} {bytes : List UInt8}

theorem subset_of_mem_splitOn {text part : List Char} {sep : Char}
    (h : part ∈ text.splitOn sep) : part ⊆ text := by
  induction text generalizing part with
  | nil =>
      rw [List.splitOn_nil, List.mem_singleton] at h
      exact h ▸ List.Subset.refl _
  | cons c text ih =>
      rw [List.splitOn, List.splitOnP_cons_eq_if_modifyHead] at h
      split_ifs at h with hc
      · rcases List.mem_cons.mp h with rfl | h
        · exact List.nil_subset _
        · exact List.subset_cons_of_subset c (ih h)
      · rcases hparts : text.splitOnP (· == sep) with _ | ⟨first, rest⟩
        · exact absurd hparts (List.splitOnP_ne_nil _ _)
        · rw [hparts, List.modifyHead_cons] at h
          have hfirst : first ⊆ text := ih (by rw [List.splitOn, hparts]; exact List.mem_cons_self)
          rcases List.mem_cons.mp h with rfl | h
          · exact List.cons_subset_cons c hfirst
          · refine List.subset_cons_of_subset c (ih ?_)
            rw [List.splitOn, hparts]
            exact List.mem_cons_of_mem _ h

theorem zero_not_mem_pathOf (h : ∀ c ∈ name, c.toUInt8 ≠ 0) : 0 ∉ pathOf name := by
  unfold pathOf
  split
  · decide
  · intro hmem
    obtain ⟨part, hpart, hzero⟩ := List.mem_flatMap.mp hmem
    have hsub := subset_of_mem_splitOn (List.mem_of_mem_filter hpart)
    rcases List.mem_cons.mp hzero with hzero | hzero
    · exact absurd hzero (by decide)
    · obtain ⟨c, hc, hzero⟩ := List.mem_map.mp hzero
      exact h c (hsub hc) hzero

theorem toUInt8_lineText {c : Char} (h : c ∈ lineText bytes) : c.toUInt8 ≠ 0 := by
  obtain ⟨b, hb, rfl⟩ := List.mem_map.mp h
  have hne : b ≠ 0 := by simpa using List.mem_takeWhile_imp hb
  have hround : (Char.ofUInt8 b).toUInt8 = b := UInt8.toUInt8_toUInt32 b
  rw [hround]
  exact hne

/-- A path that a line names exists, as one of the session's or as the root. -/
theorem pathOf_known {name : List Char}
    (h : name = [] ∨ (s.view x).cgroupExists name = true) :
    pathOf name ∈ rootPath :: s.cgroups := by
  rcases h with rfl | h
  · exact List.mem_cons_self
  · exact of_decide_eq_true h

namespace CgroupSession.Fitting

theorem create {tasks : List AttachedTask} {path : List UInt8} {n : ℕ} (hs : s.Fitting)
    (hpath : path ∈ rootPath :: s.cgroups)
    (h : fill (fun _ => ⟨true, path⟩) n 0 s.tasks = some tasks) :
    Fitting { s with tasks := tasks } := by
  refine ⟨hs.count, hs.paths, fun task htask hlive => ?_, ?_⟩
  · rcases fill_mem h htask with hold | ⟨j, rfl⟩
    · exact hs.attached task hold hlive
    · exact hpath
  · obtain ⟨-, hlen, hle⟩ := fill_cases hs.tasks h
    exact hlen ▸ hle

theorem cgroupCreate {path : List UInt8} (hs : s.Fitting)
    (hpath : path.length < pathLen ∧ 0 ∉ path) (hcount : s.cgroups.length + 1 < kstepShmCgroups) :
    Fitting { s with cgroups := s.cgroups ++ [path] } := by
  refine ⟨?_, fun q hq => ?_, fun task htask hlive => ?_, hs.tasks⟩
  · simpa using hcount
  · rcases List.mem_append.mp hq with hold | hnew
    · exact hs.paths q hold
    · rw [List.mem_singleton.mp hnew]
      exact hpath
  · rcases List.mem_cons.mp (hs.attached task htask hlive) with hroot | hmem
    · exact List.mem_cons.mpr (Or.inl hroot)
    · exact List.mem_cons_of_mem _ (List.mem_append_left _ hmem)

theorem cgroupDestroy {path : List UInt8} (hs : s.Fitting) (hbusy : s.busy path = false) :
    Fitting { s with cgroups := s.cgroups.filter (· ≠ path) } := by
  refine ⟨(List.length_filter_le _ _).trans_lt hs.count,
    fun q hq => hs.paths q (List.mem_of_mem_filter hq), fun task htask hlive => ?_, hs.tasks⟩
  have hother : task.cgroup ≠ path := by
    intro heq
    rw [CgroupSession.busy, Bool.or_eq_false_iff, List.any_eq_false] at hbusy
    exact hbusy.1 task htask (by simp [hlive, heq])
  rcases List.mem_cons.mp (hs.attached task htask hlive) with hroot | hmem
  · exact List.mem_cons.mpr (Or.inl hroot)
  · exact List.mem_cons_of_mem _ (List.mem_filter.mpr ⟨hmem, by simpa using hother⟩)

theorem cgroupAttach {path : List UInt8} {p : ℕ} (hs : s.Fitting)
    (hpath : path ∈ rootPath :: s.cgroups) :
    Fitting { s with tasks := s.tasks.modify p fun task => { task with cgroup := path } } := by
  refine ⟨hs.count, hs.paths, fun task htask hlive => ?_, by simpa using hs.tasks⟩
  rcases mem_modify_cases htask with hold | ⟨old, -, rfl⟩
  · exact hs.attached task hold hlive
  · exact hpath

theorem exited {p : ℕ} (hs : s.Fitting) :
    Fitting { s with tasks := s.tasks.modify p fun task => { task with live := false } } := by
  refine ⟨hs.count, hs.paths, fun task htask hlive => ?_, by simpa using hs.tasks⟩
  rcases mem_modify_cases htask with hold | ⟨old, -, rfl⟩
  · exact hs.attached task hold hlive
  · cases hlive

end CgroupSession.Fitting

theorem command_fitting {line : List Char} {c : Command} (hs : s.Fitting)
    (hzero : ∀ ch ∈ line, ch.toUInt8 ≠ 0) (hline : execute (s.view x) line = .ok c)
    (hfits : ∀ name, c = .cgroupCreate name → x.err = 0 →
      (pathOf name).length < pathLen ∧ s.cgroups.length + 1 < kstepShmCgroups)
    (h : s.command x c = some s') : s'.Fitting := by
  unfold CgroupSession.command at h
  split at h
  · rename_i n path
    obtain ⟨tasks, hfill, rfl⟩ := Option.map_eq_some_iff.mp h
    refine hs.create ?_ hfill
    rcases path with _ | name
    · exact List.mem_cons_self
    · have hname : pathOf name ∈ rootPath :: s.cgroups := pathOf_known (execute_create_path hline)
      exact hname
  · rename_i name
    cases h
    split_ifs with herr
    · obtain ⟨hlen, hcount⟩ := hfits name rfl herr
      refine hs.cgroupCreate ⟨hlen, zero_not_mem_pathOf fun ch hch => ?_⟩ hcount
      obtain ⟨arg, harg, hmem⟩ := (execute_cgroupCreate hline).mem ch hch
      exact hzero ch (lineArg_subset harg hmem)
    · exact hs
  · rename_i name
    cases h
    split_ifs with hbusy
    · exact hs
    · rw [Bool.or_eq_true, not_or, Bool.not_eq_true] at hbusy
      exact hs.cgroupDestroy hbusy.1
  · rename_i name p
    cases h
    split_ifs with herr
    · exact hs.cgroupAttach (pathOf_known ((execute_cgroupAttach hline).known rfl))
    · exact hs
  · cases h
    exact ⟨hs.count, hs.paths, hs.attached, hs.tasks⟩
  · cases h
    exact hs

theorem step_fitting {e : CgroupLabel} (hfits : CgroupFits s e) (h : s.step e = some s')
    (hs : s.Fitting) : s'.Fitting := by
  rcases e with ⟨bytes, x⟩ | p
  · simp only [CgroupSession.step] at h
    split_ifs at h
    split at h
    · rename_i c hline
      refine command_fitting hs (fun ch hch => ?_) (runLine_eq_execute hline) ?_ h
      · exact toUInt8_lineText (strim_subset _ hch)
      · rintro name rfl
        simp only [CgroupFits, hline] at hfits
        exact hfits
    · cases h
      exact hs
  · cases h
    exact hs.exited

/-- A session whose lines meet the condition stays within the table and the records. -/
theorem run_fitting {l : List CgroupLabel}
    (h : run CgroupSession.step CgroupSession.boot l = some s)
    (hl : Always CgroupSession.step CgroupFits CgroupSession.boot l) : s.Fitting := by
  refine run_invariant_of_always (I := CgroupSession.Fitting)
    (fun _ _ _ hfits hstep hs => step_fitting hfits hstep hs) h hl ?_
  refine ⟨by decide, ?_, ?_, Nat.zero_le _⟩
  · intro path hpath
    cases hpath
  · intro task htask
    cases htask

end KStep.Shm
