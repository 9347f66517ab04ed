import KStep.Interleaving
import KStep.Runs

/-!
# Coverage

`cov_trace_pc` hashes the last two PCs of a CPU to a slot of a shared map of saturating counts. Test
CPUs are always recorded, CPU 0 only while the controller brackets a scheduler call. The controller
is bound to CPU 0, so `kstep_cov_controller` is an event of that CPU.
-/

namespace KStep.Coverage

open Interleaving Runs

def covSize : ℕ := 1 <<< 16

inductive Event (n : ℕ)
  /-- `cov_trace_pc(ip)` on `cpu`, where `current->pid` is `pid` -/
  | trace (cpu : Fin (n + 1)) (pid : ℕ) (ip : UInt64)
  /-- `kstep_cov_controller(on)` -/
  | controller (on : Bool)
  deriving DecidableEq

structure Cov (n : ℕ) where
  covMap : Vector UInt8 covSize
  covPrev : Fin (n + 1) → UInt64
  covController : Bool

variable {n : ℕ}

def covIndex (prev ip : UInt64) : ℕ :=
  (((prev ^^^ ip) * 0x9E3779B97F4A7C15) >>> 48).toUInt32.toNat % covSize

/-- The call returns at once on CPU 0 outside the controller's brackets. -/
def skips (on : Bool) (cpu : Fin (n + 1)) (pid : ℕ) : Bool :=
  cpu == 0 && !(on && pid == 1)

/-- The saturating count of a slot. -/
def bump (m : Vector UInt8 covSize) (i : Fin covSize) : Vector UInt8 covSize :=
  if m.get i != 255 then m.set i (m.get i + 1) else m

/-- `none` is an access outside the map. -/
def covTracePc (s : Cov n) (cpu : Fin (n + 1)) (pid : ℕ) (ip : UInt64) : Option (Cov n) :=
  if skips s.covController cpu pid then some s
  else
    let i := covIndex (s.covPrev cpu) ip
    if h : i < covSize then
      some { s with
        covPrev := Function.update s.covPrev cpu ip
        covMap := bump s.covMap ⟨i, h⟩ }
    else none

def step (s : Cov n) : Event n → Option (Cov n)
  | .trace cpu pid ip => covTracePc s cpu pid ip
  | .controller on => some { s with covController := on }

def Cov.init (n : ℕ) : Cov n where
  covMap := Vector.replicate covSize 0
  covPrev := fun _ => 0
  covController := false

/-- The PCs one CPU records, from where the controller's bracket is `on` or not. -/
def recorded : Bool → List (Event n) → List UInt64
  | _, [] => []
  | _, .controller on :: l => recorded on l
  | on, .trace cpu pid ip :: l =>
      if skips on cpu pid then recorded on l else ip :: recorded on l

def edges : UInt64 → List UInt64 → List (UInt64 × UInt64)
  | _, [] => []
  | prev, ip :: l => (prev, ip) :: edges ip l

def hits (i : ℕ) (l : List (Event n)) : ℕ :=
  (edges 0 (recorded false l)).countP fun e => covIndex e.1 e.2 == i

/-- The CPUs as threads: each has its previous PC and, of use on CPU 0 only, the controller's flag,
and what it produces is the slot it counts in. -/
def cpus (n : ℕ) : Threads (Fin (n + 1)) (Event n) (UInt64 × Bool) ℕ where
  owner
    | .trace cpu _ _ => cpu
    | .controller _ => 0
  next
    | (prev, on), .trace cpu pid ip => (if skips on cpu pid then prev else ip, on)
    | (prev, _), .controller on => (prev, on)
  item
    | (prev, on), .trace cpu pid ip => if skips on cpu pid then none else some (covIndex prev ip)
    | _, .controller _ => none

theorem covIndex_lt (prev ip : UInt64) : covIndex prev ip < covSize := Nat.mod_lt _ (by decide)

theorem items_eq (prev : UInt64) (on : Bool) (l : List (Event n)) :
    items (cpus n) (prev, on) l = (edges prev (recorded on l)).map fun e => covIndex e.1 e.2 := by
  induction l generalizing prev on with
  | nil => rfl
  | cons e l ih =>
      cases e with
      | controller on => exact ih prev on
      | trace cpu pid ip =>
          simp only [items, cpus, recorded]
          by_cases hskips : skips on cpu pid = true
          · rw [if_pos hskips, if_pos hskips, if_pos hskips]
            exact ih prev on
          · rw [if_neg hskips, if_neg hskips, if_neg hskips, edges, List.map_cons]
            exact congrArg (covIndex prev ip :: ·) (ih ip on)

theorem count_items (i : ℕ) (l : List (Event n)) :
    (items (cpus n) (0, false) l).count i = hits i l := by
  rw [items_eq, List.count, List.countP_map]
  rfl

/-- The counter of one slot goes up by one, to 255 at most. -/
theorem get_bump (m : Vector UInt8 covSize) (i j : Fin covSize) :
    ((bump m i).get j).toNat = min 255 ((m.get j).toNat + [i.val].count j.val) := by
  have hle := (m.get j).toNat_lt
  by_cases hij : i = j
  · subst hij
    rw [List.count_singleton_self, bump]
    by_cases hfull : m.get i = 255
    · rw [if_neg (by rw [hfull]; decide), hfull]
      rfl
    · have hne : (m.get i).toNat ≠ 255 := fun h => hfull (UInt8.toNat_inj.mp h)
      have hset : (m.set i (m.get i + 1)).get i = m.get i + 1 := Vector.getElem_set_self i.isLt
      rw [if_pos (bne_iff_ne.mpr hfull), hset, UInt8.toNat_add, UInt8.toNat_one]
      omega
  · have hne : i.val ≠ j.val := fun h => hij (Fin.ext h)
    have hset (x : UInt8) : (m.set i x).get j = m.get j := Vector.getElem_set_ne i.isLt j.isLt hne
    have hcount : [i.val].count j.val = 0 := by
      rw [List.count_singleton, if_neg (by rw [beq_iff_eq]; exact hne)]
    rw [hcount, Nat.add_zero, Nat.min_eq_right (by omega), bump]
    split_ifs
    · rw [hset]
    · rfl

structure Tracks (s : Cov n) (a : Fin (n + 1) → UInt64 × Bool) : Prop where
  prev : ∀ cpu, (a cpu).1 = s.covPrev cpu
  controller : (a 0).2 = s.covController

theorem Tracks.skips {s : Cov n} {a : Fin (n + 1) → UInt64 × Bool} (h : Tracks s a)
    (cpu : Fin (n + 1)) (pid : ℕ) :
    Coverage.skips (a cpu).2 cpu pid = Coverage.skips s.covController cpu pid := by
  by_cases hcpu : cpu = 0
  · rw [hcpu, h.controller]
  · rw [Coverage.skips, Coverage.skips, beq_eq_false_iff_ne.mpr hcpu, Bool.false_and,
      Bool.false_and]

theorem Tracks.setController {s : Cov n} {a : Fin (n + 1) → UInt64 × Bool} (h : Tracks s a)
    (on : Bool) :
    Tracks { s with covController := on } (Function.update a 0 ((a 0).1, on)) := by
  refine ⟨fun cpu => ?_, ?_⟩
  · by_cases hcpu : cpu = 0
    · subst hcpu
      rw [Function.update_self]
      exact h.prev 0
    · rw [Function.update_of_ne hcpu]
      exact h.prev cpu
  · rw [Function.update_self]

theorem Tracks.setPrev {s : Cov n} {a : Fin (n + 1) → UInt64 × Bool} (h : Tracks s a)
    (cpu : Fin (n + 1)) (ip : UInt64) (m : Vector UInt8 covSize) :
    Tracks { s with covPrev := Function.update s.covPrev cpu ip, covMap := m }
      (Function.update a cpu (ip, (a cpu).2)) := by
  refine ⟨fun c => ?_, ?_⟩
  · by_cases hc : c = cpu
    · subst hc
      simp only [Function.update_self]
    · simp only [Function.update_of_ne hc]
      exact h.prev c
  · by_cases hcpu : cpu = 0
    · subst hcpu
      rw [Function.update_self]
      exact h.controller
    · rw [Function.update_of_ne (Ne.symm hcpu)]
      exact h.controller

/-- One event counts in the slot its thread names, and the states go on together. -/
theorem step_tracks {s : Cov n} {a : Fin (n + 1) → UInt64 × Bool} (h : Tracks s a) (e : Event n) :
    ∃ t, step s e = some t ∧
      Tracks t (Function.update a ((cpus n).owner e)
        ((cpus n).next (a ((cpus n).owner e)) e)) ∧
      ∀ i : Fin covSize, (t.covMap.get i).toNat = min 255 ((s.covMap.get i).toNat +
        (((cpus n).item (a ((cpus n).owner e)) e).toList).count i.val) := by
  have hkeep (i : Fin covSize) : (s.covMap.get i).toNat =
      min 255 ((s.covMap.get i).toNat + ([] : List ℕ).count i.val) := by
    have hle := (s.covMap.get i).toNat_lt
    rw [List.count_nil]
    omega
  cases e with
  | controller on => exact ⟨_, rfl, h.setController on, hkeep⟩
  | trace cpu pid ip =>
      have hskips := h.skips cpu pid
      by_cases hskip : skips s.covController cpu pid = true
      · refine ⟨s, if_pos hskip, ?_, ?_⟩
        · simpa [cpus, hskips, hskip] using h
        · simpa [cpus, hskips, hskip] using hkeep
      · have hindex := covIndex_lt (s.covPrev cpu) ip
        refine ⟨_, (if_neg hskip).trans (dif_pos hindex), ?_, fun i => ?_⟩
        · simpa [cpus, hskips, hskip] using h.setPrev cpu ip (bump s.covMap ⟨_, hindex⟩)
        · simpa [cpus, hskips, hskip, h.prev] using get_bump s.covMap ⟨_, hindex⟩ i

/-- A run never leaves the map and counts in every slot what the threads produce. -/
theorem run_tracks {s : Cov n} {a : Fin (n + 1) → UInt64 × Bool} (h : Tracks s a)
    (l : List (Event n)) :
    ∃ t, run step s l = some t ∧ ∀ i : Fin covSize, (t.covMap.get i).toNat =
      min 255 ((s.covMap.get i).toNat + (allItems (cpus n) a l).count i.val) := by
  induction l generalizing s a with
  | nil =>
      refine ⟨s, rfl, fun i => ?_⟩
      have hle := (s.covMap.get i).toNat_lt
      rw [allItems, List.count_nil]
      omega
  | cons e l ih =>
      obtain ⟨t, hstep, htracks, hcount⟩ := step_tracks h e
      obtain ⟨u, hrun, htotal⟩ := ih htracks
      refine ⟨u, by rw [run, hstep]; exact hrun, fun i => ?_⟩
      rw [htotal, hcount, allItems, List.count_append]
      omega

/-- Any interleaving of the CPUs' sequences leaves the counts of their edges. -/
theorem run_interleaving {l : List (Event n)} {f : Fin (n + 1) → List (Event n)}
    (h : Interleaves (cpus n) l f) :
    ∃ t, run step (Cov.init n) l = some t ∧
      ∀ i : Fin covSize, (t.covMap.get i).toNat = min 255 (∑ cpu, hits i (f cpu)) := by
  have hinit : Tracks (Cov.init n) fun _ => (0, false) := ⟨fun _ => rfl, rfl⟩
  obtain ⟨t, hrun, hcount⟩ := run_tracks hinit l
  refine ⟨t, hrun, fun i => ?_⟩
  have hzero : ((Cov.init n).covMap.get i).toNat = 0 :=
    congrArg UInt8.toNat (Vector.getElem_replicate i.isLt)
  rw [hcount, hzero, Nat.zero_add, h.count_allItems]
  exact congrArg (min 255) (Finset.sum_congr rfl fun cpu _ => count_items i (f cpu))

/-- The final map is the same for all interleavings of the CPUs' sequences: each slot has the number
of their edges that hash to it, or 255. -/
theorem covMap_interleaving (f : Fin (n + 1) → List (Event n)) (l l' : List (Event n))
    (h : Interleaves (cpus n) l f) (h' : Interleaves (cpus n) l' f) :
    (∃ t t', run step (Cov.init n) l = some t ∧ run step (Cov.init n) l' = some t' ∧
      t.covMap = t'.covMap ∧
      ∀ i : Fin covSize, (t.covMap.get i).toNat = min 255 (∑ cpu, hits i (f cpu))) ∧
    ∀ prev ip, covIndex prev ip < covSize := by
  obtain ⟨t, hrun, hcount⟩ := run_interleaving h
  obtain ⟨t', hrun', hcount'⟩ := run_interleaving h'
  refine ⟨⟨t, t', hrun, hrun', ?_, hcount⟩, covIndex_lt⟩
  apply Vector.ext
  intro i hi
  apply UInt8.toNat_inj.mp
  exact (hcount ⟨i, hi⟩).trans (hcount' ⟨i, hi⟩).symm

def twoCpus : Fin 2 → List (Event 1)
  | 0 => [.controller true, .trace 0 1 16, .controller false, .trace 0 1 48]
  | 1 => [.trace 1 7 32, .trace 1 7 32]

theorem covMap_twoCpus :
    (∃ t t',
      run step (Cov.init 1) [.controller true, .trace 0 1 16, .controller false, .trace 0 1 48,
        .trace 1 7 32, .trace 1 7 32] = some t ∧
      run step (Cov.init 1) [.trace 1 7 32, .controller true, .trace 0 1 16, .trace 1 7 32,
        .controller false, .trace 0 1 48] = some t' ∧
      t.covMap = t'.covMap ∧
      ∀ i : Fin covSize, (t.covMap.get i).toNat = min 255 (∑ cpu, hits i (twoCpus cpu))) ∧
    ∀ prev ip, covIndex prev ip < covSize := by
  apply covMap_interleaving twoCpus
  · unfold Interleaves
    decide
  · unfold Interleaves
    decide

end KStep.Coverage
