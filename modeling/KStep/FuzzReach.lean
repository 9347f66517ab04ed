import KStep.FuzzPanics
import Mathlib.Data.Nat.Bitwise

/-!
# What the fuzzer can say

Each arm of `decode` squeezes its arguments out of three bytes. Most arms reach every argument their
cli verb takes. A frequency scale comes from one byte and stops at 256, the CPUs of an affinity list
come from the bits of one byte and stop at the eighth, and the parent of a new cgroup is picked by
an odd byte, which misses half of an even number of cgroups.
-/

namespace KStep.Fuzz

open CString Cli Checked

def Command.Alike (c c' : Command) : Prop :=
  c = c' ∨ ∃ t cpus cpus', c = .affinity t cpus ∧ c' = .affinity t cpus' ∧
    ∀ cpu, cpu ∈ cpus ↔ cpu ∈ cpus'

/-- A command the host could choose: in range, on what it knows, with its own name for a cgroup. -/
structure Command.Choosable (bug : Bug) (d : Decoder) (c : Command) : Prop where
  allowed : c.Allowed bug (· ∈ d.alive) (· ∈ d.cgroups)
  named : ∀ parent n, c = .cgroupCreate parent n → n = d.cgroups.length + 1

def Command.Fits (d : Decoder) : Command → Prop
  | .cpuFreq _ scale => scale ≤ 256
  | .affinity _ cpus => ∀ cpu ∈ cpus, cpu ≤ 8
  | .cgroupCreate parent _ => parent = [] ∨
      ∃ i, d.cgroups[i]? = some parent ∧ (i % 2 = 1 ∨ d.cgroups.length % 2 = 1)
  | _ => True

/-- A state of the decoder with at least one task, and at most 64 tasks and 64 cgroups. -/
structure Decoder.Small (d : Decoder) : Prop where
  alive : d.alive ≠ []
  tasks : d.alive.length ≤ 64
  cgroups : d.cgroups.length ≤ 64

def Bug.table (bug : Bug) : List Line := generalVerbs ++ bug.verbs

variable {bug : Bug} {d : Decoder} {r : Record} {c c' : Command} {verb : Line}

theorem exists_byte {n : ℕ} (h : n < 256) : ∃ a : UInt8, a.toNat = n :=
  ⟨UInt8.ofNat n, UInt8.toNat_ofNat_of_lt' h⟩

/-- A byte picks every element of a short list. -/
theorem exists_byte_getD {α : Type} {xs : List α} {x : α} (hx : x ∈ xs) (hlen : xs.length ≤ 256)
    (y : α) : ∃ a : UInt8, xs.getD (a.toNat % xs.length) y = x := by
  obtain ⟨i, hi, rfl⟩ := List.getElem_of_mem hx
  obtain ⟨a, ha⟩ := exists_byte (hi.trans_le hlen)
  refine ⟨a, ?_⟩
  rw [ha, Nat.mod_eq_of_lt hi, List.getD_eq_getElem _ _ hi]

/-- A byte picks every set of CPUs among the first eight. -/
theorem exists_byte_cpus {cpus : List ℕ} (hne : cpus ≠ []) (htest : ∀ cpu ∈ cpus, bug.TestCpu cpu)
    (hfits : ∀ cpu ∈ cpus, cpu ≤ 8) :
    ∃ b : UInt8, ∀ cpu, cpu ∈ bug.cpus b.toNat ↔ cpu ∈ cpus := by
  let bits : Fin 8 → Bool := fun i => cpus.any (· == i.val + 1)
  obtain ⟨b, hb⟩ := exists_byte (Nat.ofBits_lt_two_pow bits)
  have hbit (i : ℕ) (hi : i < 8) : b.toNat.testBit i = true ↔ i + 1 ∈ cpus := by
    rw [hb, Nat.testBit_ofBits_lt bits i hi]
    simp [bits]
  have hlow (i : ℕ) (h : b.toNat.testBit i = true) : i < 8 := by
    by_contra hge
    rw [hb, Nat.testBit_ofBits_ge bits i (Nat.le_of_not_lt hge)] at h
    cases h
  have hmem (i : ℕ) : i ∈ (List.range bug.testCpus).filter (fun i => b.toNat.testBit i) ↔
      i + 1 ∈ cpus := by
    rw [List.mem_filter, List.mem_range]
    constructor
    · rintro ⟨-, h⟩
      exact (hbit i (hlow i h)).mp h
    · intro h
      have hcpu := (htest _ h).2
      have hle := hfits _ h
      exact ⟨by omega, (hbit i (by omega)).mpr h⟩
  have hpicked : (List.range bug.testCpus).filter (fun i => b.toNat.testBit i) ≠ [] := by
    obtain ⟨cpu, hcpu⟩ := List.exists_mem_of_ne_nil cpus hne
    have hpos := (htest cpu hcpu).1
    refine List.ne_nil_of_mem ((hmem (cpu - 1)).mpr ?_)
    rwa [Nat.sub_add_cancel hpos]
  refine ⟨b, fun cpu => ?_⟩
  simp only [Bug.cpus, if_neg hpicked, List.mem_map]
  constructor
  · rintro ⟨i, hi, rfl⟩
    exact (hmem i).mp hi
  · intro hcpu
    have hpos := (htest cpu hcpu).1
    refine ⟨cpu - 1, (hmem _).mpr ?_, Nat.sub_add_cancel hpos⟩
    rwa [Nat.sub_add_cancel hpos]

/-- The verbs within reach of a byte. -/
theorem exists_byte_verb (hverb : verb ∈ bug.table.take 256) :
    ∃ v : UInt8, ∀ a b c : UInt8, bug.verbAt ⟨v, a, b, c⟩ = verb := by
  obtain ⟨i, hi, rfl⟩ := List.getElem_of_mem hverb
  rw [List.length_take] at hi
  obtain ⟨v, hv⟩ := exists_byte (n := i) (by omega)
  have hlt : i < (generalVerbs ++ bug.verbs).length := by
    unfold Bug.table at hi
    omega
  refine ⟨v, fun a b c => ?_⟩
  simp only [Bug.verbAt, hv, Nat.mod_eq_of_lt hlt, List.getD_eq_getElem _ _ hlt, List.getElem_take]
  rfl

/-- A record with a given verb, when there is a task to name. -/
theorem command_of_verb (halive : d.alive ≠ []) {arm : Arm} (harm : armOf (bug.verbAt r) = arm) :
    bug.command d r = bug.armCommand d r arm := by
  have hempty : d.alive.isEmpty = false := List.isEmpty_eq_false_iff.mpr halive
  simp only [Bug.command, hempty, Bool.and_false, Bool.false_eq_true, if_false, harm]

theorem exists_byte_cpu (hcpus : bug.Sized) {cpu : ℕ} (hcpu : bug.TestCpu cpu) :
    ∃ a : UInt8, bug.cpu a.toNat = cpu := by
  obtain ⟨hpos, hle⟩ := hcpu
  have htest := hcpus.testCpus.2
  obtain ⟨a, ha⟩ := exists_byte (n := cpu - 1) (by omega)
  refine ⟨a, ?_⟩
  rw [Bug.cpu, ha, Nat.mod_eq_of_lt (by omega)]
  omega

/-- An odd byte picks an odd place, and every place of an odd number of cgroups. -/
theorem exists_byte_parent {i : ℕ} {parent : Line} (hd : d.Small)
    (hparent : d.cgroups[i]? = some parent) (hodd : i % 2 = 1 ∨ d.cgroups.length % 2 = 1) :
    ∃ b : UInt8, b.toNat % 2 = 1 ∧ d.cgroup b.toNat = parent := by
  obtain ⟨hi, hget⟩ := List.getElem?_eq_some_iff.mp hparent
  have hlen := hd.cgroups
  obtain ⟨n, hn, hbyte, hmod⟩ : ∃ n, n % 2 = 1 ∧ n < 256 ∧ n % d.cgroups.length = i := by
    by_cases hi2 : i % 2 = 1
    · exact ⟨i, hi2, by omega, Nat.mod_eq_of_lt hi⟩
    · refine ⟨i + d.cgroups.length, by omega, by omega, ?_⟩
      rw [Nat.add_mod_right, Nat.mod_eq_of_lt hi]
  obtain ⟨b, hb⟩ := exists_byte hbyte
  refine ⟨b, hb ▸ hn, ?_⟩
  rw [Decoder.cgroup, hb, hmod, List.getD_eq_getElem _ _ hi, hget]

/-- The root is picked by every even byte, and the cgroups that an odd byte can pick by that. -/
theorem exists_byte_created {parent : Line} (hd : d.Small)
    (hparent : parent = [] ∨ ∃ i, d.cgroups[i]? = some parent ∧
      (i % 2 = 1 ∨ d.cgroups.length % 2 = 1)) :
    ∃ b : UInt8, (if d.cgroups = [] ∨ b.toNat % 2 = 0 then [] else d.cgroup b.toNat) = parent := by
  rcases hparent with rfl | ⟨i, hi, hodd⟩
  · exact ⟨0, if_pos (Or.inr rfl)⟩
  · obtain ⟨b, hb, hpick⟩ := exists_byte_parent hd hi hodd
    have hsome : ¬ (d.cgroups = [] ∨ b.toNat % 2 = 0) := by
      rintro (hnone | heven)
      · simp [hnone] at hi
      · omega
    exact ⟨b, (if_neg hsome).trans hpick⟩

/-- The root is at 0 and the cgroups are behind it. -/
theorem exists_byte_attached {path : Line} (hd : d.Small)
    (hpath : path = "/".toList ∨ path ∈ d.cgroups) :
    ∃ b : UInt8, (if b.toNat % (d.cgroups.length + 1) = 0 then "/".toList
      else d.cgroups.getD (b.toNat % (d.cgroups.length + 1) - 1) []) = path := by
  rcases hpath with rfl | hpath
  · exact ⟨0, if_pos (Nat.zero_mod _)⟩
  · obtain ⟨i, hi, rfl⟩ := List.getElem_of_mem hpath
    have hlen := hd.cgroups
    obtain ⟨b, hb⟩ := exists_byte (n := i + 1) (by omega)
    refine ⟨b, ?_⟩
    rw [hb, Nat.mod_eq_of_lt (by omega), if_neg (Nat.succ_ne_zero i), Nat.add_sub_cancel,
      List.getD_eq_getElem _ _ hi]

/-- Every command the host could choose and three bytes can pick has a record. -/
theorem exists_record (hcpus : bug.Sized) (hd : d.Small) (hc : c.Choosable bug d)
    (hverb : c.verb ∈ bug.table.take 256) (hfits : c.Fits d) :
    ∃ r, (bug.command d r).Alike c := by
  obtain ⟨v, hv⟩ := exists_byte_verb hverb
  have harm := armOf_verb hc.allowed
  have hcmd (a b c' : UInt8) :
      bug.command d ⟨v, a, b, c'⟩ = bug.armCommand d ⟨v, a, b, c'⟩ c.arm :=
    command_of_verb hd.alive (by rw [hv, harm])
  have htasks : d.alive.length ≤ 256 := hd.tasks.trans (by decide)
  have hcgroups : d.cgroups.length ≤ 256 := hd.cgroups.trans (by decide)
  have hallowed := hc.allowed
  cases c with
  | tick => exact ⟨⟨v, 0, 0, 0⟩, Or.inl (hcmd 0 0 0)⟩
  | create => exact ⟨⟨v, 0, 0, 0⟩, Or.inl (hcmd 0 0 0)⟩
  | cpuFreq cpu scale =>
      obtain ⟨hcpu, hlow, hhigh⟩ := hallowed
      have hscale : scale ≤ 256 := hfits
      obtain ⟨a, ha⟩ := exists_byte_cpu hcpus hcpu
      obtain ⟨b, hb⟩ := exists_byte (n := scale - 1) (by omega)
      refine ⟨⟨v, a, b, 0⟩, Or.inl ((hcmd a b 0).trans ?_)⟩
      have hpick : 1 + b.toNat % 1024 = scale := by omega
      simp only [Bug.armCommand, Command.arm, ha, hpick]
  | policyFair t policy nice =>
      obtain ⟨ht, hpolicy, hlow, hhigh⟩ := hallowed
      obtain ⟨a, ha⟩ := exists_byte_getD ht htasks 0
      obtain ⟨b, hb⟩ := exists_byte_getD hpolicy (by decide) []
      obtain ⟨e, he⟩ := exists_byte (n := (nice + 20).toNat) (by omega)
      refine ⟨⟨v, a, b, e⟩, Or.inl ((hcmd a b e).trans ?_)⟩
      have hpick : (e.toNat : ℤ) % 40 - 20 = nice := by omega
      have hpolicy' : fairPolicies.getD (b.toNat % 3) [] = policy := hb
      simp only [Bug.armCommand, Command.arm, Decoder.task, ha, hpolicy', hpick]
  | policyRt t policy prio =>
      obtain ⟨ht, hpolicy, hlow, hhigh⟩ := hallowed
      obtain ⟨a, ha⟩ := exists_byte_getD ht htasks 0
      obtain ⟨b, hb⟩ := exists_byte_getD hpolicy (by decide) []
      obtain ⟨e, he⟩ := exists_byte (n := prio - 1) (by omega)
      refine ⟨⟨v, a, b, e⟩, Or.inl ((hcmd a b e).trans ?_)⟩
      have hpick : 1 + e.toNat % 99 = prio := by omega
      have hpolicy' : rtPolicies.getD (b.toNat % 2) [] = policy := hb
      simp only [Bug.armCommand, Command.arm, Decoder.task, ha, hpolicy', hpick]
  | affinity t cpus =>
      obtain ⟨ht, hne, htest⟩ := hallowed
      obtain ⟨a, ha⟩ := exists_byte_getD ht htasks 0
      obtain ⟨b, hb⟩ := exists_byte_cpus hne htest hfits
      refine ⟨⟨v, a, b, 0⟩, Or.inr ⟨t, bug.cpus b.toNat, cpus, (hcmd a b 0).trans ?_, rfl, hb⟩⟩
      simp only [Bug.armCommand, Command.arm, Decoder.task, ha]
  | kill t =>
      obtain ⟨a, ha⟩ := exists_byte_getD hallowed htasks 0
      refine ⟨⟨v, a, 0, 0⟩, Or.inl ((hcmd a 0 0).trans ?_)⟩
      simp only [Bug.armCommand, Command.arm, Decoder.task, ha]
  | cgroupCreate parent n =>
      have hn := hc.named parent n rfl
      obtain ⟨b, hb⟩ := exists_byte_created hd hfits
      refine ⟨⟨v, 0, b, 0⟩, Or.inl ((hcmd 0 b 0).trans ?_)⟩
      simp only [Bug.armCommand, Command.arm, hb, hn]
  | cgroupWeight path weight =>
      obtain ⟨hpath, hlow, hhigh⟩ := hallowed
      obtain ⟨a, ha⟩ := exists_byte_getD hpath hcgroups []
      obtain ⟨b, hb⟩ := exists_byte (n := (weight - 1) / 256) (by omega)
      obtain ⟨e, he⟩ := exists_byte (n := (weight - 1) % 256) (by omega)
      refine ⟨⟨v, a, b, e⟩, Or.inl ((hcmd a b e).trans ?_)⟩
      have hpick : 1 + (b.toNat * 256 + e.toNat) % 10000 = weight := by omega
      simp only [Bug.armCommand, Command.arm, if_neg (List.ne_nil_of_mem hpath), Decoder.cgroup, ha,
        hpick]
  | cgroupDestroy path =>
      obtain ⟨a, ha⟩ := exists_byte_getD hallowed hcgroups []
      refine ⟨⟨v, a, 0, 0⟩, Or.inl ((hcmd a 0 0).trans ?_)⟩
      simp only [Bug.armCommand, Command.arm, if_neg (List.ne_nil_of_mem hallowed), Decoder.cgroup,
        ha]
  | cgroupAttach path t =>
      obtain ⟨hpath, ht⟩ := hallowed
      obtain ⟨a, ha⟩ := exists_byte_getD ht htasks 0
      obtain ⟨b, hb⟩ := exists_byte_attached hd hpath
      refine ⟨⟨v, a, b, 0⟩, Or.inl ((hcmd a b 0).trans ?_)⟩
      simp only [Bug.armCommand, Command.arm, Decoder.task, ha, hb]
  | taskVerb verb t =>
      obtain ⟨a, ha⟩ := exists_byte_getD hallowed.2 htasks 0
      refine ⟨⟨v, a, 0, 0⟩, Or.inl ((hcmd a 0 0).trans ?_)⟩
      simp only [Bug.armCommand, Command.arm, Decoder.task, ha, hv]
      rfl

end KStep.Fuzz
