import KStep.ShmBytes

/-!
# Decoding any bytes

Every byte string ends in the error that fits it or in the state of its counted rows, unless a
counted domain has a run of groups that ends past `u32`.
-/

namespace KStep.Shm

structure Region.CountsFit (r : Region) : Prop where
  ncpus : r.hdr.ncpus.toNat ≤ kstepShmCpus
  ntasks : r.hdr.ntasks.toNat ≤ kstepShmTasks
  ncgroups : r.hdr.ncgroups.toNat ≤ kstepShmCgroups
  ndomains : r.hdr.ndomains.toNat ≤ kstepShmDomains
  ngroups : r.hdr.ngroups.toNat ≤ kstepShmGroups
  nentities : r.hdr.nentities.toNat ≤ kstepShmEntities
  nrtEntities : r.hdr.nrtEntities.toNat ≤ kstepShmTasks

def Region.groups (r : Region) : List Group := (counted r.group r.hdr.ngroups).map decodeGroup

def Region.domains (r : Region) : List DomainRow := counted r.domain r.hdr.ndomains

/-- The records `group..group + ngroups` when they are all counted, else none. -/
def groupRun (groups : List Group) (d : DomainRow) : List Group :=
  if d.group.toNat + d.ngroups.toNat ≤ groups.length then
    (groups.drop d.group.toNat).take d.ngroups.toNat
  else []

def domainOf (r : Region) (groups : List Group) (d : DomainRow) : Domain where
  cpu := d.cpu
  span := d.span
  name := cstr d.name
  flags := flagNames r d.flags
  imbalancePct := d.imbalancePct
  balanceInterval := d.balanceInterval
  busyFactor := d.busyFactor
  cacheNiceTries := d.cacheNiceTries
  nrBalanceFailed := d.nrBalanceFailed
  nextBalanceIn := d.nextBalanceIn
  balancer := d.balancer
  groups := groupRun groups d

def Region.state (r : Region) : State := stateOf r (r.domains.map (domainOf r r.groups))

/-- The sum that ends a domain's run stays in `u32`. -/
def DomainRow.RunInU32 (d : DomainRow) : Prop := d.group.toNat + d.ngroups.toNat < 2 ^ 32

/-- Decoding `b` returns, with the error that fits it or the state of its counted rows. -/
structure DecodesExactly (b : List UInt8) : Prop where
  returns : decodeBytes b ≠ .error .overflow
  short : decodeBytes b = .error (.error .short) ↔ b.length < shmSize
  layout : ∀ l, decodeBytes b = .error (.error (.layout l)) ↔
    shmSize ≤ b.length ∧ (readRegion b).hdr.layout = l ∧ l ≠ kstepShmLayout
  count : decodeBytes b = .error (.error .count) ↔
    shmSize ≤ b.length ∧ (readRegion b).hdr.layout = kstepShmLayout ∧ ¬ (readRegion b).CountsFit
  ok : ∀ st, decodeBytes b = .ok st ↔ shmSize ≤ b.length ∧
    (readRegion b).hdr.layout = kstepShmLayout ∧ (readRegion b).CountsFit ∧
    st = (readRegion b).state

variable {r : Region} {b : List UInt8} {groups : List Group} {d : DomainRow}

theorem decodeDomain_ok (h : d.RunInU32) :
    decodeDomain r groups d = .ok (domainOf r groups d) := by
  rw [DomainRow.RunInU32] at h
  simp only [decodeDomain, decodeRun, if_neg (Nat.not_le.mpr h), Nat.add_sub_cancel_left, domainOf,
    groupRun]
  split_ifs <;> rfl

theorem decodeDomain_overflow (h : ¬ d.RunInU32) :
    decodeDomain r groups d = .error .overflow := by
  simp only [decodeDomain, decodeRun, if_pos (Nat.not_lt.mp h)]
  rfl

theorem mapM_decodeDomain_ok {rows : List DomainRow} (h : ∀ d ∈ rows, d.RunInU32) :
    rows.mapM (decodeDomain r groups) = .ok (rows.map (domainOf r groups)) := by
  induction rows with
  | nil => rfl
  | cons d rows ih =>
      rw [List.mapM_cons, decodeDomain_ok (h d (by simp)), ih fun d' hd' => h d' (by simp [hd'])]
      rfl

theorem mapM_decodeDomain_overflow {rows : List DomainRow} (h : ¬ ∀ d ∈ rows, d.RunInU32) :
    rows.mapM (decodeDomain r groups) = .error .overflow := by
  induction rows with
  | nil => exact absurd (by simp) h
  | cons d rows ih =>
      rw [List.mapM_cons]
      by_cases hd : d.RunInU32
      · have hrows : ¬ ∀ d ∈ rows, d.RunInU32 := fun hall => h (List.forall_mem_cons.mpr ⟨hd, hall⟩)
        rw [decodeDomain_ok hd, ih hrows]
        rfl
      · rw [decodeDomain_overflow hd]
        rfl

theorem table_bind {R S T : Type} {cap : ℕ} (rows : Vector R cap) (n : UInt32) (f : R → T)
    (k : List T → Except Stop S) :
    (table rows n f >>= k) =
      if n.toNat ≤ cap then k ((counted rows n).map f) else .error (.error .count) := by
  rw [table]
  split_ifs <;> rfl

theorem decodeRegion_layout (h : r.hdr.layout ≠ kstepShmLayout) :
    decodeRegion r = .error (.error (.layout r.hdr.layout)) := by
  simp only [decodeRegion, if_pos h]
  rfl

/-- The first count that does not fit ends decoding, whichever it is. -/
theorem decodeRegion_count (hlayout : r.hdr.layout = kstepShmLayout) (h : ¬ r.CountsFit) :
    decodeRegion r = .error (.error .count) := by
  simp only [decodeRegion, hlayout, ne_eq, not_true_eq_false, if_false, table_bind]
  split_ifs with hncpus hncgroups hntasks hnentities hnrtEntities hngroups hndomains
  · exact absurd ⟨hncpus, hntasks, hncgroups, hndomains, hngroups, hnentities, hnrtEntities⟩ h
  all_goals rfl

theorem decodeRegion_counted (hlayout : r.hdr.layout = kstepShmLayout) (h : r.CountsFit) :
    decodeRegion r = (r.domains.mapM (decodeDomain r r.groups)).map (stateOf r) := by
  simp only [decodeRegion, hlayout, ne_eq, not_true_eq_false, if_false, table_counted h.ncpus,
    table_counted h.ncgroups, table_counted h.ntasks, table_counted h.nentities,
    table_counted h.nrtEntities, table_counted h.ngroups, table_counted h.ndomains, List.map_id,
    bind, Except.bind, pure, Except.pure]
  rw [Region.domains, Region.groups]
  rcases (counted r.domain r.hdr.ndomains).mapM _ with e | domains <;> rfl

theorem decodeBytes_region (h : shmSize ≤ b.length) : decodeBytes b = decodeRegion (readRegion b) :=
  if_neg (Nat.not_lt.mpr h)

theorem decodeBytes_short (h : b.length < shmSize) : decodeBytes b = .error (.error .short) :=
  if_pos h

theorem decodesExactly_of_short (h : b.length < shmSize) : DecodesExactly b := by
  have hsize : ¬ shmSize ≤ b.length := Nat.not_le.mpr h
  have heq := decodeBytes_short h
  refine ⟨by simp [heq], by simp [heq, h], fun l => ?_, ?_, fun st => ?_⟩
  · simp [heq, hsize]
  · simp [heq, hsize]
  · simp [heq, hsize]

theorem decodesExactly_of_layout (h : shmSize ≤ b.length)
    (hlayout : (readRegion b).hdr.layout ≠ kstepShmLayout) : DecodesExactly b := by
  have hsize : ¬ b.length < shmSize := Nat.not_lt.mpr h
  have heq := (decodeBytes_region h).trans (decodeRegion_layout hlayout)
  refine ⟨by simp [heq], by simp [heq, hsize], fun l => ?_, by simp [heq, hlayout], fun st => ?_⟩
  · simp only [heq, Except.error.injEq, Stop.error.injEq, Error.layout.injEq, h, true_and]
    constructor
    · rintro rfl
      exact ⟨rfl, hlayout⟩
    · exact And.left
  · simp [heq, hlayout]

theorem decodesExactly_of_count (h : shmSize ≤ b.length)
    (hlayout : (readRegion b).hdr.layout = kstepShmLayout) (hcount : ¬ (readRegion b).CountsFit) :
    DecodesExactly b := by
  have hsize : ¬ b.length < shmSize := Nat.not_lt.mpr h
  have heq := (decodeBytes_region h).trans (decodeRegion_count hlayout hcount)
  refine ⟨by simp [heq], by simp [heq, hsize], fun l => ?_, by simp [heq, h, hlayout, hcount],
    fun st => ?_⟩
  · simp only [heq, Except.error.injEq, Stop.error.injEq, reduceCtorEq, false_iff]
    rintro ⟨-, rfl, hne⟩
    exact hne hlayout
  · simp [heq, hcount]

theorem decodesExactly_of_ok (h : shmSize ≤ b.length)
    (hlayout : (readRegion b).hdr.layout = kstepShmLayout) (hcount : (readRegion b).CountsFit)
    (hruns : ∀ d ∈ (readRegion b).domains, d.RunInU32) : DecodesExactly b := by
  have hsize : ¬ b.length < shmSize := Nat.not_lt.mpr h
  have heq : decodeBytes b = .ok (readRegion b).state := by
    rw [decodeBytes_region h, decodeRegion_counted hlayout hcount, mapM_decodeDomain_ok hruns]
    rfl
  refine ⟨by simp [heq], by simp [heq, hsize], fun l => ?_, by simp [heq, hcount], fun st => ?_⟩
  · simp only [heq, reduceCtorEq, false_iff]
    rintro ⟨-, rfl, hne⟩
    exact hne hlayout
  · simp only [heq, Except.ok.injEq, h, hlayout, hcount, true_and]
    exact eq_comm

theorem decodeBytes_overflow (h : shmSize ≤ b.length)
    (hlayout : (readRegion b).hdr.layout = kstepShmLayout) (hcount : (readRegion b).CountsFit)
    (hruns : ¬ ∀ d ∈ (readRegion b).domains, d.RunInU32) :
    decodeBytes b = .error .overflow := by
  rw [decodeBytes_region h, decodeRegion_counted hlayout hcount, mapM_decodeDomain_overflow hruns]
  rfl

/-- The decoder does what it says on all bytes but those of a region whose counts fit and in which
the run of a counted domain ends past `u32`. -/
theorem decodesExactly_iff (b : List UInt8) :
    DecodesExactly b ↔ (shmSize ≤ b.length → (readRegion b).hdr.layout = kstepShmLayout →
      (readRegion b).CountsFit → ∀ d ∈ (readRegion b).domains, d.RunInU32) := by
  constructor
  · intro hexact h hlayout hcount
    by_contra hruns
    exact hexact.returns (decodeBytes_overflow h hlayout hcount hruns)
  · intro hruns
    by_cases h : shmSize ≤ b.length
    · by_cases hlayout : (readRegion b).hdr.layout = kstepShmLayout
      · by_cases hcount : (readRegion b).CountsFit
        · exact decodesExactly_of_ok h hlayout hcount (hruns h hlayout hcount)
        · exact decodesExactly_of_count h hlayout hcount
      · exact decodesExactly_of_layout h hlayout
    · exact decodesExactly_of_short (Nat.not_le.mp h)

/-- A region with one domain, whose run starts at the last group a `u32` can name. -/
def overflowByte (i : ℕ) : UInt8 :=
  if i = 0 then 14
  else if i = 24 ∨ i = domainTable + 24 then 1
  else if domainTable + 20 ≤ i ∧ i < domainTable + 24 then 255
  else 0

def overflowBytes : List UInt8 := (List.range shmSize).map overflowByte

theorem byteAt_overflowBytes {i : ℕ} (h : i < shmSize) :
    byteAt overflowBytes i = overflowByte i := by
  rw [byteAt, overflowBytes, List.getD_eq_getElem?_getD, List.getElem?_map,
    List.getElem?_range h]
  rfl

def overflowWord (i : ℕ) : UInt32 :=
  UInt32.ofNat ((overflowByte i).toNat + 2 ^ 8 * (overflowByte (i + 1)).toNat +
    2 ^ 16 * (overflowByte (i + 2)).toNat + 2 ^ 24 * (overflowByte (i + 3)).toNat)

theorem u32At_overflowBytes {i : ℕ} (h : i + 3 < shmSize) :
    u32At overflowBytes i = overflowWord i := by
  rw [u32At, byteAt_overflowBytes (by omega), byteAt_overflowBytes (by omega),
    byteAt_overflowBytes (by omega), byteAt_overflowBytes h, overflowWord]

theorem u32At_zero {i : ℕ} (h : i + 3 < shmSize ∧ overflowWord i = 0) (cap : ℕ) :
    (u32At overflowBytes i).toNat ≤ cap := by
  rw [u32At_overflowBytes h.1, h.2]
  exact Nat.zero_le cap

theorem first_domain_mem (h : (readRegion b).hdr.ndomains = 1) :
    domainAt b domainTable ∈ (readRegion b).domains := by
  have hrow : (readRegion b).domains[0]? = some (domainAt b domainTable) := by
    have hdomain : (readRegion b).domain = arrayAt 64 kstepShmDomains domainAt b domainTable := rfl
    rw [Region.domains, counted, h, List.getElem?_take_of_lt (by decide), hdomain, arrayAt,
      Vector.getElem?_toList, Vector.getElem?_ofFn, dif_pos (by decide)]
    rfl
  exact List.mem_of_getElem? hrow

/-- With `group` 4294967295 and `ngroups` 1 the sum is 2³². -/
theorem not_decodesExactly : ¬ ∀ b, DecodesExactly b := by
  intro h
  have hsize : overflowBytes.length = shmSize := by
    rw [overflowBytes, List.length_map, List.length_range]
  have hword (i : ℕ) (n : UInt32) (hi : i + 3 < shmSize ∧ overflowWord i = n) :
      u32At overflowBytes i = n := (u32At_overflowBytes hi.1).trans hi.2
  have hlayout : (readRegion overflowBytes).hdr.layout = kstepShmLayout := hword 0 14 (by decide)
  have hndomains : (readRegion overflowBytes).hdr.ndomains = 1 := hword (0 + 24) 1 (by decide)
  have hcount : (readRegion overflowBytes).CountsFit := by
    refine ⟨u32At_zero (i := 0 + 12) (by decide) _, u32At_zero (i := 0 + 16) (by decide) _,
      u32At_zero (i := 0 + 20) (by decide) _, ?_, u32At_zero (i := 0 + 28) (by decide) _,
      u32At_zero (i := 0 + 32) (by decide) _, u32At_zero (i := 0 + 36) (by decide) _⟩
    rw [hndomains]
    decide
  have hgroup : (domainAt overflowBytes domainTable).group = 4294967295 :=
    hword (domainTable + 20) _ (by decide)
  have hngroups : (domainAt overflowBytes domainTable).ngroups = 1 :=
    hword (domainTable + 24) _ (by decide)
  refine (h overflowBytes).returns (decodeBytes_overflow hsize.ge hlayout hcount fun hruns => ?_)
  have hrun := hruns _ (first_domain_mem hndomains)
  rw [DomainRow.RunInU32, hgroup, hngroups] at hrun
  exact absurd hrun (by decide)

end KStep.Shm
