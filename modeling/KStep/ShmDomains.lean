import KStep.ShmDecode
import KStep.ShmTables

/-!
# The domains and their runs of the group table

The groups of all domains share one table. Each domain takes the rows behind the last one's run, as
many of its groups as still fit, and the host cuts the same run out again.
-/

namespace KStep.Shm

open RowTable

/-- What successive lists leave in a flat table with `room` rows. -/
def runs {R : Type*} : ℕ → List (List R) → List (List R)
  | _, [] => []
  | room, l :: ls => l.take room :: runs (room - l.length) ls

/-- The rows of domains whose first group is row `g`. -/
def placed (k : Kernel) (s : Session) : ℕ → List (ℕ × SchedDomain) → List DomainRow
  | _, [] => []
  | g, (cpu, sd) :: rest =>
    let n := (sd.groupRows.take (kstepShmGroups - g)).length
    domainRow k s cpu sd g n :: placed k s (g + n) rest

def Session.hierarchy (s : Session) : List (ℕ × SchedDomain) :=
  (List.range' 1 s.ncpus).flatMap fun cpu => (s.domains cpu).map (cpu, ·)

/-- The two loops as one over all the domains. -/
def collectDomains (k : Kernel) (s : Session) :
    List (ℕ × SchedDomain) → DomainTables → Option DomainTables
  | [], t => some t
  | (cpu, sd) :: rest, t =>
    if t.1.n = kstepShmDomains then some t
    else (collectCpuDomains k s cpu [sd] t).bind (collectDomains k s rest)

variable {k : Kernel} {s : Session} {t : DomainTables}

theorem collectDomains_full (h : t.1.n = kstepShmDomains) (l : List (ℕ × SchedDomain)) :
    collectDomains k s l t = some t := by
  rcases l with _ | ⟨⟨cpu, sd⟩, rest⟩
  · rfl
  · exact if_pos h

theorem collectCpuDomains_bind (cpu : ℕ) (ds : List SchedDomain) (rest : List (ℕ × SchedDomain)) :
    (collectCpuDomains k s cpu ds t).bind (collectDomains k s rest) =
      collectDomains k s (ds.map (cpu, ·) ++ rest) t := by
  induction ds generalizing t with
  | nil => rfl
  | cons sd ds ih =>
      obtain ⟨out, groups⟩ := t
      by_cases hfull : out.n = kstepShmDomains
      · rw [collectDomains_full hfull]
        simp only [collectCpuDomains, if_pos hfull, Option.bind]
        exact collectDomains_full hfull rest
      · simp only [List.map_cons, List.cons_append, collectDomains, collectCpuDomains,
          if_neg hfull, bind, Option.bind_assoc, Option.bind_some, ih]

theorem foldlM_collectCpuDomains (cpus : List ℕ) :
    cpus.foldlM (fun t cpu => if t.1.n < kstepShmDomains then
      collectCpuDomains k s cpu (s.domains cpu) t else some t) t =
      collectDomains k s (cpus.flatMap fun cpu => (s.domains cpu).map (cpu, ·)) t := by
  induction cpus generalizing t with
  | nil => rfl
  | cons cpu cpus ih =>
      rw [List.foldlM_cons, List.flatMap_cons, ← collectCpuDomains_bind]
      have hrest := funext fun t => ih (t := t)
      split_ifs with hroom
      · exact congrArg _ hrest
      · have hfull : t.1.n = kstepShmDomains := le_antisymm t.1.le (not_lt.mp hroom)
        rw [collectCpuDomains_bind, collectDomains_full hfull]
        exact (ih (t := t)).trans (collectDomains_full hfull _)

theorem room_after {g : ℕ} (sd : SchedDomain) :
    kstepShmGroups - (g + (sd.groupRows.take (kstepShmGroups - g)).length) =
      kstepShmGroups - g - sd.groupRows.length := by
  rw [List.length_take]
  omega

/-- The loop over the domains leaves the rows of those that fit, and their groups run by run. -/
theorem exists_collectDomains (l : List (ℕ × SchedDomain)) (t : DomainTables) :
    ∃ t', collectDomains k s l t = some t' ∧
      t'.1.recs = t.1.recs ++ placed k s t.2.n (l.take (kstepShmDomains - t.1.n)) ∧
      t'.2.recs = t.2.recs ++ (runs (kstepShmGroups - t.2.n)
        ((l.take (kstepShmDomains - t.1.n)).map (·.2.groupRows))).flatten := by
  induction l generalizing t with
  | nil => exact ⟨t, rfl, by simp [placed], by simp [runs]⟩
  | cons d l ih =>
      obtain ⟨cpu, sd⟩ := d
      obtain ⟨out, groups⟩ := t
      by_cases hfull : out.n = kstepShmDomains
      · refine ⟨_, collectDomains_full hfull _, ?_, ?_⟩
        · simp [hfull, placed]
        · simp [hfull, runs]
      · obtain ⟨groups', hfill, hgroups⟩ := groups.exists_fill sd.groupRows
        obtain ⟨out', hpush, hout⟩ := out.exists_push (lt_of_le_of_ne out.le hfull)
          (domainRow k s cpu sd groups.n (sd.groupRows.take (kstepShmGroups - groups.n)).length)
        obtain ⟨t', ht', hrows, hruns⟩ := ih (out', groups')
        have hn : out'.n = out.n + 1 := by
          rw [← out'.length_recs, hout, List.length_append, out.length_recs]
          rfl
        have hm : groups'.n = groups.n +
            (sd.groupRows.take (kstepShmGroups - groups.n)).length := by
          rw [← groups'.length_recs, hgroups, List.length_append, groups.length_recs]
        have hroom : kstepShmGroups - groups'.n =
            kstepShmGroups - groups.n - sd.groupRows.length := by
          rw [hm, room_after]
        have htake : ((cpu, sd) :: l).take (kstepShmDomains - out.n) =
            (cpu, sd) :: l.take (kstepShmDomains - out'.n) := by
          have hle := out.le
          rw [hn, show kstepShmDomains - out.n = kstepShmDomains - (out.n + 1) + 1 by omega,
            List.take_succ_cons]
        refine ⟨t', ?_, ?_, ?_⟩
        · simp only [collectDomains, collectCpuDomains, if_neg hfull, hfill, hpush, bind,
            Option.bind, ht']
        · simp only [hrows, hout, htake, placed, hm, List.append_assoc, List.singleton_append]
        · simp only [hruns, hgroups, htake, List.map_cons, runs, List.flatten_cons, hroom,
            List.append_assoc]

theorem exists_shmCollectDomains (k : Kernel) (s : Session) (out : Vector DomainRow kstepShmDomains)
    (groups : Vector GroupRow kstepShmGroups) :
    ∃ t', shmCollectDomains k s (Table.fresh out, Table.fresh groups) = some t' ∧
      t'.1.recs = placed k s 0 (s.hierarchy.take kstepShmDomains) ∧
      t'.2.recs = (runs kstepShmGroups
        ((s.hierarchy.take kstepShmDomains).map (·.2.groupRows))).flatten := by
  unfold shmCollectDomains
  rw [foldlM_collectCpuDomains]
  obtain ⟨t', ht', hrows, hruns⟩ :=
    exists_collectDomains (k := k) (s := s) s.hierarchy (Table.fresh out, Table.fresh groups)
  refine ⟨t', ht', ?_, ?_⟩
  · simpa using hrows
  · simpa using hruns

/-- The runs of the rows follow each other, from group `a` to group `b`. -/
def Consecutive : ℕ → List DomainRow → ℕ → Prop
  | a, [], b => a = b
  | a, d :: ds, b => d.group.toNat = a ∧ Consecutive (a + d.ngroups.toNat) ds b

variable {g : ℕ} {l : List (ℕ × SchedDomain)}

theorem length_take_groupRows (hg : g ≤ kstepShmGroups) (sd : SchedDomain) :
    g + (sd.groupRows.take (kstepShmGroups - g)).length ≤ kstepShmGroups := by
  rw [List.length_take]
  omega

theorem placed_consecutive (hg : g ≤ kstepShmGroups) :
    Consecutive g (placed k s g l)
      (g + (runs (kstepShmGroups - g) (l.map (·.2.groupRows))).flatten.length) := by
  induction l generalizing g with
  | nil => rfl
  | cons d l ih =>
      obtain ⟨cpu, sd⟩ := d
      have hle := length_take_groupRows hg sd
      have hroom := room_after (g := g) sd
      refine ⟨toNat_ofNat hg, ?_⟩
      have hn : (UInt32.ofNat (sd.groupRows.take (kstepShmGroups - g)).length).toNat =
          (sd.groupRows.take (kstepShmGroups - g)).length :=
        toNat_ofNat (le_trans (by omega) hle)
      have hrest := ih hle
      rw [hroom] at hrest
      simp only [List.map_cons, runs, List.flatten_cons, List.length_append, ← Nat.add_assoc]
      change Consecutive (g + (UInt32.ofNat _).toNat) _ _
      rw [hn]
      exact hrest

theorem decodeRun_placed {groups run rest : List Group} {d : DomainRow} (hd : d.group.toNat = g)
    (hn : d.ngroups.toNat = run.length) (hle : g + run.length ≤ kstepShmGroups)
    (hg : g ≤ groups.length) (hdrop : groups.drop g = run ++ rest) :
    decodeRun groups d = .ok run := by
  have hlen := congrArg List.length hdrop
  rw [List.length_drop, List.length_append] at hlen
  have hover : ¬ 2 ^ 32 ≤ g + run.length := by
    simp only [kstepShmGroups] at hle
    omega
  simp only [decodeRun, hd, hn, if_neg hover, if_pos (show g + run.length ≤ groups.length by omega),
    Nat.add_sub_cancel_left, hdrop, List.take_left]

/-- The host cuts out of the table the run that was written for each domain. -/
theorem exists_mapM_decodeDomain (k : Kernel) (s : Session) (r : Region) {groups : List Group}
    (hg : g ≤ kstepShmGroups) (hlen : g ≤ groups.length)
    (hdrop : groups.drop g =
      (runs (kstepShmGroups - g) (l.map (·.2.groupRows))).flatten.map decodeGroup) :
    ∃ ds, (placed k s g l).mapM (decodeDomain r groups) = .ok ds ∧
      ds.map (·.groups) =
        (runs (kstepShmGroups - g) (l.map (·.2.groupRows))).map (List.map decodeGroup) := by
  induction l generalizing g with
  | nil => exact ⟨[], rfl, rfl⟩
  | cons d l ih =>
      obtain ⟨cpu, sd⟩ := d
      have hle := length_take_groupRows hg sd
      have hroom := room_after (g := g) sd
      simp only [List.map_cons, runs, List.flatten_cons, List.map_append] at hdrop
      have hrun : decodeRun groups
          (domainRow k s cpu sd g (sd.groupRows.take (kstepShmGroups - g)).length) =
            .ok ((sd.groupRows.take (kstepShmGroups - g)).map decodeGroup) := by
        refine decodeRun_placed (toNat_ofNat hg) ?_ ?_ hlen hdrop
        · rw [List.length_map]
          exact toNat_ofNat (le_trans (by omega) hle)
        · rw [List.length_map]
          exact hle
      have hdrop' : groups.drop (g + (sd.groupRows.take (kstepShmGroups - g)).length) =
          (runs (kstepShmGroups - g - sd.groupRows.length)
            (l.map (·.2.groupRows))).flatten.map decodeGroup := by
        rw [← List.drop_drop, hdrop, List.drop_left' (by rw [List.length_map])]
      have hlen' : g + (sd.groupRows.take (kstepShmGroups - g)).length ≤ groups.length := by
        have := congrArg List.length hdrop
        rw [List.length_drop, List.length_append, List.length_map] at this
        omega
      rw [← hroom] at hdrop'
      obtain ⟨ds, hds, hgroups⟩ := ih hle hlen' hdrop'
      rw [hroom] at hgroups
      simp only [placed, List.mapM_cons, decodeDomain, hrun, bind, Except.bind, pure, Except.pure]
      rw [hds]
      exact ⟨_, rfl, by simp only [List.map_cons, runs, hgroups]⟩

end KStep.Shm
