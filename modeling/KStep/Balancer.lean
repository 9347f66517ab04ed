import KStep.ShmDomains
import Mathlib.Order.Bounds.Basic

/-!
# Who balances a group

The region names, for each domain, the CPU that will balance it. The scan of `shm_collect_domains`
keeps two candidates and stops at the second; what it reports is the choice of `should_we_balance`,
for any mask, any idle CPUs and any cores, also those with a sibling outside the mask.
-/

namespace KStep.Shm

open RowTable

section First

variable {α : Type*} [PartialOrder α] {p : α → Bool} {l : List α} {c : α}

/-- The first element found in order is the least. -/
theorem isLeast_of_find?_eq_some (hl : l.Pairwise (· ≤ ·)) (h : l.find? p = some c) :
    IsLeast {x | x ∈ l ∧ p x = true} c := by
  refine ⟨⟨List.mem_of_find?_eq_some h, List.find?_some h⟩, ?_⟩
  rintro x ⟨hx, hp⟩
  induction l with
  | nil => cases hx
  | cons a l ih =>
      rw [List.pairwise_cons] at hl
      by_cases ha : p a = true
      · rw [List.find?_cons_of_pos ha] at h
        cases h
        rcases List.mem_cons.mp hx with rfl | hx
        · exact le_refl _
        · exact hl.1 x hx
      · rw [List.find?_cons_of_neg ha] at h
        rcases List.mem_cons.mp hx with rfl | hx
        · exact absurd hp ha
        · exact ih hl.2 h hx

end First

/-- `should_we_balance`: the CPU of `mask` that balances for its group. -/
inductive Chooses (mask : Finset ℕ) (idle : ℕ → Prop) (siblings : ℕ → Finset ℕ) (shares : Prop) :
    ℕ → Prop
  /-- where capacity is shared, the first idle CPU -/
  | idleThread {c : ℕ} (hshares : shares) (h : IsLeast {c | c ∈ mask ∧ idle c} c) :
      Chooses mask idle siblings shares c
  /-- above, the first idle CPU of an idle core -/
  | idleCore {c : ℕ} (hshares : ¬ shares)
      (h : IsLeast {c | c ∈ mask ∧ idle c ∧ ∀ t ∈ siblings c, idle t} c) :
      Chooses mask idle siblings shares c
  /-- else the first idle CPU -/
  | busyCore {c : ℕ} (hshares : ¬ shares)
      (hnone : ∀ c ∈ mask, idle c → ∃ t ∈ siblings c, ¬ idle t)
      (h : IsLeast {c | c ∈ mask ∧ idle c} c) : Chooses mask idle siblings shares c
  /-- and with none idle, the first CPU -/
  | noneIdle {c : ℕ} (hnone : ∀ c ∈ mask, ¬ idle c) (h : IsLeast {c | c ∈ mask} c) :
      Chooses mask idle siblings shares c

def SchedDomain.Balancer (k : Kernel) (s : Session) (sd : SchedDomain) : ℕ → Prop :=
  Chooses sd.groupBalanceMask (shmIdleCpu s · = true) s.smtMask
    (sd.flags &&& k.sdShareCpucapacity ≠ 0)

variable {mask : Finset ℕ} {idle : ℕ → Prop} {siblings : ℕ → Finset ℕ} {shares : Prop} {c c' : ℕ}
  {k : Kernel} {s : Session} {sd : SchedDomain}

/-- At most one CPU is chosen. -/
theorem Chooses.unique (h : Chooses mask idle siblings shares c)
    (h' : Chooses mask idle siblings shares c') : c = c' := by
  cases h with
  | idleThread hshares h =>
      cases h' with
      | idleThread _ h' => exact h.unique h'
      | idleCore hnot => exact absurd hshares hnot
      | busyCore hnot => exact absurd hshares hnot
      | noneIdle hnone => exact absurd h.1.2 (hnone c h.1.1)
  | idleCore hshares h =>
      cases h' with
      | idleThread hyes => exact absurd hyes hshares
      | idleCore _ h' => exact h.unique h'
      | busyCore _ hnone =>
          obtain ⟨t, ht, hbusy⟩ := hnone c h.1.1 h.1.2.1
          exact absurd (h.1.2.2 t ht) hbusy
      | noneIdle hnone => exact absurd h.1.2.1 (hnone c h.1.1)
  | busyCore hshares hnone h =>
      cases h' with
      | idleThread hyes => exact absurd hyes hshares
      | idleCore _ h' =>
          obtain ⟨t, ht, hbusy⟩ := hnone c' h'.1.1 h'.1.2.1
          exact absurd (h'.1.2.2 t ht) hbusy
      | busyCore _ _ h' => exact h.unique h'
      | noneIdle hnone' => exact absurd h.1.2 (hnone' c h.1.1)
  | noneIdle hnone h =>
      cases h' with
      | idleThread _ h' => exact absurd h'.1.2 (hnone c' h'.1.1)
      | idleCore _ h' => exact absurd h'.1.2.1 (hnone c' h'.1.1)
      | busyCore _ _ h' => exact absurd h'.1.2 (hnone c' h'.1.1)
      | noneIdle _ h' => exact h.unique h'

def idleCoreCpu (s : Session) (c : ℕ) : Bool :=
  shmIdleCpu s c && (s.smtMask c).sort.all (shmIdleCpu s)

theorem idleCoreCpu_iff :
    idleCoreCpu s c = true ↔
      shmIdleCpu s c = true ∧ ∀ t ∈ s.smtMask c, shmIdleCpu s t = true := by
  simp [idleCoreCpu]

/-- The scan ends early, but not before it has the first idle CPU. -/
theorem idleScan_eq (s : Session) (l : List ℕ) (firstIdle : Option ℕ) :
    idleScan s l firstIdle =
      (firstIdle.or (l.find? (shmIdleCpu s)), l.find? (idleCoreCpu s)) := by
  induction l generalizing firstIdle with
  | nil => rw [idleScan, List.find?_nil, List.find?_nil, Option.or_none]
  | cons c l ih =>
      rw [idleScan]
      by_cases hidle : shmIdleCpu s c = true
      · rw [if_neg (by simp [hidle]), List.find?_cons_of_pos hidle]
        by_cases hcore : (s.smtMask c).sort.all (shmIdleCpu s) = true
        · have hpos : idleCoreCpu s c = true := by rw [idleCoreCpu, hidle, hcore]; rfl
          rw [List.find?_cons_of_pos hpos]
          exact if_pos hcore
        · have hneg : ¬ idleCoreCpu s c = true := by
            rw [idleCoreCpu, hidle, Bool.true_and]
            exact hcore
          rw [List.find?_cons_of_neg hneg]
          refine (if_neg hcore).trans ?_
          rw [ih, Option.or_assoc, Option.some_or]
      · have hneg : ¬ idleCoreCpu s c = true := by
          rw [idleCoreCpu_iff]
          exact fun h => hidle h.1
        rw [if_pos (by simpa using hidle), ih, List.find?_cons_of_neg hidle,
          List.find?_cons_of_neg hneg]

theorem find?_sort_eq_none {p : ℕ → Bool} (h : mask.sort.find? p = none) :
    ∀ c ∈ mask, ¬ p c = true := fun c hc =>
  List.find?_eq_none.mp h c ((Finset.mem_sort _).mpr hc)

theorem isLeast_of_find?_sort {p : ℕ → Bool} (h : mask.sort.find? p = some c) :
    IsLeast {c | c ∈ mask ∧ p c = true} c := by
  have hleast := isLeast_of_find?_eq_some (Finset.pairwise_sort mask _) h
  simpa only [Finset.mem_sort] using hleast

/-- What is reported for a group with a CPU in it is the choice. -/
theorem exists_balancer (k : Kernel) (s : Session) (h : sd.groupBalanceMask.Nonempty) :
    ∃ c, sd.Balancer k s c ∧ balancer k s sd = UInt32.ofNat c := by
  simp only [balancer, idleScan_eq, Option.none_or]
  rcases hfirst : sd.groupBalanceMask.sort.find? (shmIdleCpu s) with _ | first
  · have hnone := find?_sort_eq_none hfirst
    have hcore : sd.groupBalanceMask.sort.find? (idleCoreCpu s) = none := by
      refine List.find?_eq_none.mpr fun c hc hcore => ?_
      exact hnone c ((Finset.mem_sort _).mp hc) (idleCoreCpu_iff.mp hcore).1
    obtain ⟨c, l, hsort⟩ := List.exists_cons_of_ne_nil (l := sd.groupBalanceMask.sort) (by
      intro hnil
      obtain ⟨c, hc⟩ := h
      rw [← Finset.mem_sort (· ≤ ·), hnil] at hc
      cases hc)
    have hleast : IsLeast {c | c ∈ sd.groupBalanceMask} c := by
      have hfind : sd.groupBalanceMask.sort.find? (fun _ => true) = some c := by
        rw [hsort, List.find?_cons_of_pos rfl]
      simpa using isLeast_of_find?_sort hfind
    refine ⟨c, .noneIdle hnone hleast, ?_⟩
    rw [hcore, hfirst, hsort]
    split_ifs <;> rfl
  · have hleast := isLeast_of_find?_sort hfirst
    by_cases hshares : sd.flags &&& k.sdShareCpucapacity ≠ 0
    · refine ⟨first, .idleThread hshares hleast, ?_⟩
      rw [if_pos hshares, hfirst, Option.getD_some]
    · rw [if_neg hshares, hfirst]
      rcases hcore : sd.groupBalanceMask.sort.find? (idleCoreCpu s) with _ | core
      · rw [hcore, Option.none_or, Option.getD_some]
        refine ⟨first, .busyCore hshares (fun c hc hidle => ?_) hleast, rfl⟩
        by_contra! hsiblings
        exact find?_sort_eq_none hcore c hc (idleCoreCpu_iff.mpr ⟨hidle, hsiblings⟩)
      · rw [hcore, Option.some_or, Option.getD_some]
        have hleast' := isLeast_of_find?_sort hcore
        simp only [idleCoreCpu_iff] at hleast'
        exact ⟨core, .idleCore hshares hleast', rfl⟩

theorem Chooses.nonempty (h : Chooses mask idle siblings shares c) : mask.Nonempty := by
  cases h with
  | idleThread _ h => exact ⟨c, h.1.1⟩
  | idleCore _ h => exact ⟨c, h.1.1⟩
  | busyCore _ _ h => exact ⟨c, h.1.1⟩
  | noneIdle _ h => exact ⟨c, h.1⟩

theorem balancer_eq (h : sd.Balancer k s c) : balancer k s sd = UInt32.ofNat c := by
  obtain ⟨c', hc', heq⟩ := exists_balancer k s (Chooses.nonempty h)
  rw [heq, Chooses.unique h hc']

theorem placed_balancer (k : Kernel) (s : Session) (g : ℕ) (l : List (ℕ × SchedDomain)) :
    List.Forall₂ (fun (row : DomainRow) e =>
      row.cpu = UInt32.ofNat e.1 ∧ row.balancer = balancer k s e.2) (placed k s g l) l := by
  induction l generalizing g with
  | nil => exact .nil
  | cons e l ih => exact .cons ⟨rfl, rfl⟩ (ih _)

/-- In every record that `shm_collect_domains` leaves, `balancer` is the CPU that the choice of
`should_we_balance` falls on, and it falls on one in every group that has a CPU. -/
theorem collected_balancer (k : Kernel) (s : Session) (out : Vector DomainRow kstepShmDomains)
    (groups : Vector GroupRow kstepShmGroups) :
    ∃ t, shmCollectDomains k s (Table.fresh out, Table.fresh groups) = some t ∧
      List.Forall₂ (fun (row : DomainRow) e => row.cpu = UInt32.ofNat e.1 ∧
          (∀ c, e.2.Balancer k s c → row.balancer = UInt32.ofNat c) ∧
          (e.2.groupBalanceMask.Nonempty → ∃ c, e.2.Balancer k s c))
        t.1.recs (s.hierarchy.take kstepShmDomains) := by
  obtain ⟨t, ht, hrows, -⟩ := exists_shmCollectDomains k s out groups
  refine ⟨t, ht, ?_⟩
  rw [hrows]
  refine (placed_balancer k s 0 _).imp fun row e h => ⟨h.1, fun c hc => ?_, fun hmask => ?_⟩
  · rw [h.2, balancer_eq hc]
  · obtain ⟨c, hc, -⟩ := exists_balancer k s hmask
    exact ⟨c, hc⟩

end KStep.Shm
