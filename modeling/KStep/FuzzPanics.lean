import KStep.FuzzReturns
import KStep.FuzzRefers

/-!
# The decoder never panics

For two to 32 CPUs no index, remainder, sum, difference or shift of `decode` fails on any input: the
loops return what the decoder of `Fuzz` describes, unless a vector runs out of memory. The vectors of
tasks and cgroups have room when there is room for what the setup makes and one more for each record.
-/

namespace KStep.Fuzz

open CString Trim Cli Checked

variable {bug : Bug} {d : Decoder} {r : Record} {n : ℕ} {rs : List Record} {m : Prop}

theorem verbChecked_eq (hverbs : Fits stringBytes bug.verbs.length) :
    bug.verbChecked r = .ok (bug.verbAt r) := by
  have hlen : generalVerbs.length = 5 := rfl
  have hadd : add generalVerbs.length bug.verbs.length =
      .ok (generalVerbs ++ bug.verbs).length := by
    rw [List.length_append]
    refine add_ok ?_
    unfold Fits stringBytes at hverbs
    omega
  have hpos : 0 < (generalVerbs ++ bug.verbs).length := by
    rw [List.length_append]
    omega
  have hlt := Nat.mod_lt r.verb.toNat hpos
  simp only [Bug.verbChecked, hadd, rem_ok hpos, bind, Except.bind, Bug.verbAt]
  generalize r.verb.toNat % (generalVerbs ++ bug.verbs).length = i at *
  split_ifs with hgeneral
  · rw [index_ok hgeneral [], List.getD_append _ _ _ _ hgeneral]
  · rw [List.length_append] at hlt
    rw [sub_ok (Nat.le_of_not_lt hgeneral)]
    simp only
    rw [index_ok (by omega) [], List.getD_append_right _ _ _ _ (Nat.le_of_not_lt hgeneral)]

theorem taskChecked_eq (h : d.alive ≠ []) (a : ℕ) : d.taskChecked a = .ok (d.task a) := by
  have hpos := List.length_pos_of_ne_nil h
  simp only [Decoder.taskChecked, rem_ok hpos, bind, Except.bind]
  exact index_ok (Nat.mod_lt _ hpos) 0

theorem cgroupChecked_eq (h : d.cgroups ≠ []) (b : ℕ) : d.cgroupChecked b = .ok (d.cgroup b) := by
  have hpos := List.length_pos_of_ne_nil h
  simp only [Decoder.cgroupChecked, rem_ok hpos, bind, Except.bind]
  exact index_ok (Nat.mod_lt _ hpos) []

/-- The test CPUs of a machine of two to 32. -/
structure Bug.Sized (bug : Bug) : Prop where
  two_le : 2 ≤ bug.numCpus
  le_max : bug.numCpus ≤ 32

theorem Bug.Sized.testCpus (h : bug.Sized) : 0 < bug.testCpus ∧ bug.testCpus ≤ 31 := by
  have h1 := h.two_le
  have h2 := h.le_max
  unfold Bug.testCpus
  omega

theorem cpuChecked_eq (h : bug.Sized) (b : ℕ) :
    cpuChecked bug.testCpus b = .ok (bug.cpu b) := by
  obtain ⟨hpos, hle⟩ := h.testCpus
  have hlt := Nat.mod_lt b hpos
  simp only [cpuChecked, rem_ok hpos, bind, Except.bind]
  exact add_ok (by omega)

theorem pickChecked_eq {is : List ℕ} (his : ∀ i ∈ is, i < 64) (b : ℕ) :
    pickChecked b is = .ok (is.filter fun i => b.testBit i) := by
  induction is with
  | nil => rfl
  | cons i is ih =>
      have hbit : b >>> i % 2 = 1 ↔ b.testBit i = true := by
        rw [Nat.testBit_eq_decide_div_mod_eq, Nat.shiftRight_eq_div_pow, decide_eq_true_iff]
      simp only [pickChecked, shr_ok (his i (by simp)), ih fun j hj => his j (by simp [hj]), bind,
        Except.bind, pure, Except.pure, hbit, List.filter_cons]

theorem mapM_add_eq {is : List ℕ} (his : ∀ i ∈ is, i < 64) :
    is.mapM (add · 1) = .ok (is.map (· + 1)) := by
  induction is with
  | nil => rfl
  | cons i is ih =>
      have hi := his i (by simp)
      rw [List.mapM_cons, add_ok (by omega), ih fun j hj => his j (by simp [hj])]
      rfl

theorem cpusChecked_eq (h : bug.Sized) (b : ℕ) :
    cpusChecked bug.testCpus b = .ok (bug.cpus b) := by
  have hrange : ∀ i ∈ List.range bug.testCpus, i < 64 := by
    intro i hi
    have := List.mem_range.mp hi
    have := h.testCpus.2
    omega
  have hpicked : ∀ i ∈ (List.range bug.testCpus).filter (fun i => b.testBit i), i < 64 :=
    fun i hi => hrange i (List.mem_of_mem_filter hi)
  simp only [cpusChecked, pickChecked_eq hrange, cpuChecked_eq h, mapM_add_eq hpicked, bind,
    Except.bind, pure, Except.pure, Bug.cpus]
  split_ifs <;> rfl

/-- Room for the sums of the loops: the vectors fit, and `k` records came after the setup. -/
structure Decoder.Roomy (d : Decoder) (k : ℕ) : Prop where
  ntasks : d.ntasks < 2 ^ 60 + k
  cgroups : Fits stringBytes d.cgroups.length

/-- The setup kills no task, so its vector of tasks is as long as their count. -/
structure Decoder.Packed (d : Decoder) : Prop where
  length : d.alive.length = d.ntasks
  alive : Fits usizeBytes d.alive.length
  cgroups : Fits stringBytes d.cgroups.length

theorem Decoder.Packed.roomy (h : d.Packed) : d.Roomy 0 where
  ntasks := by
    have hfits := h.alive
    have hlen := h.length
    unfold Fits usizeBytes at hfits
    omega
  cgroups := h.cgroups

/-- The vectors of a decoder fit with `n` more in each. -/
def Decoder.Spare (d : Decoder) (n : ℕ) : Prop :=
  Fits usizeBytes (d.alive.length + n) ∧ Fits stringBytes (d.cgroups.length + n)

theorem pushTask_returns (h : d.ntasks + 1 < 2 ^ 64)
    (hm : m → Fits usizeBytes (d.alive.length + 1)) :
    Returns m d.pushTask (d.addTasks 1) (Fits usizeBytes (d.alive.length + 1)) := by
  simp only [Decoder.pushTask, add_ok h, bind, Except.bind]
  exact (push_returns usizeBytes d.alive (d.ntasks + 1) hm).bind fun hfits => returns_ok hfits

theorem Decoder.Packed.addTasks (h : d.Packed) (hfits : Fits usizeBytes (d.alive.length + n)) :
    (d.addTasks n).Packed where
  length := by simp [Decoder.addTasks, h.length]
  alive := by simpa [Decoder.addTasks] using hfits
  cgroups := h.cgroups

theorem pushTasks_returns (h : d.Packed) (n : ℕ)
    (hm : m → Fits usizeBytes (d.alive.length + n)) :
    Returns m (d.pushTasks n) (d.addTasks n) (d.addTasks n).Packed := by
  induction n with
  | zero =>
      have hnone : d.addTasks 0 = d := by simp [Decoder.addTasks]
      rw [hnone]
      exact returns_ok h
  | succ n ih =>
      rw [addTasks_succ]
      have hlen : (d.addTasks n).alive.length = d.alive.length + n := by simp [Decoder.addTasks]
      refine (ih fun hm' => (hm hm').mono (Nat.le_succ _)).bind fun hpacked => ?_
      have hroom := hpacked.roomy.ntasks
      refine (pushTask_returns (by omega) fun hm' => ?_).imp hpacked.addTasks
      rw [hlen]
      exact hm hm'

theorem pushCgroup_returns (d : Decoder) (path : Line)
    (hm : m → Fits stringBytes (d.cgroups.length + 1)) :
    Returns m (d.pushCgroup path) { d with cgroups := d.cgroups ++ [path] }
      (Fits stringBytes (d.cgroups.length + 1)) :=
  (push_returns stringBytes d.cgroups path hm).bind fun hfits => returns_ok hfits

theorem setupChecked_returns (h : d.Packed) (line : Line) (hm : m → (d.setup line).Spare 0) :
    Returns m (d.setupChecked line) (d.setup line) (d.setup line).Packed := by
  unfold Decoder.setupChecked
  unfold Decoder.setup at hm ⊢
  simp only at hm ⊢
  split_ifs at hm ⊢
  · refine pushTasks_returns h _ fun hm' => ?_
    simpa [Decoder.addTasks] using (hm hm').1
  · refine (pushCgroup_returns d (splitOnce line).2 fun hm' => ?_).imp fun hfits => ?_
    · simpa using (hm hm').2
    · refine ⟨h.length, h.alive, ?_⟩
      simpa using hfits
  · exact returns_ok h

/-- A setup line takes no task or cgroup away. -/
theorem setup_length_le (d : Decoder) (line : Line) :
    d.alive.length ≤ (d.setup line).alive.length ∧
      d.cgroups.length ≤ (d.setup line).cgroups.length := by
  unfold Decoder.setup
  simp only
  split_ifs
  · simp [Decoder.addTasks]
  · simp
  · exact ⟨Nat.le_refl _, Nat.le_refl _⟩

theorem setups_length_le (d : Decoder) (lines : List Line) :
    d.alive.length ≤ (lines.foldl Decoder.setup d).alive.length ∧
      d.cgroups.length ≤ (lines.foldl Decoder.setup d).cgroups.length := by
  induction lines generalizing d with
  | nil => exact ⟨Nat.le_refl _, Nat.le_refl _⟩
  | cons line lines ih =>
      obtain ⟨htasks, hcgroups⟩ := setup_length_le d line
      obtain ⟨htasks', hcgroups'⟩ := ih (d.setup line)
      exact ⟨htasks.trans htasks', hcgroups.trans hcgroups'⟩

theorem setupProgramChecked_returns (h : d.Packed) (lines : List Line)
    (hm : m → (lines.foldl Decoder.setup d).Spare 0) :
    Returns m (setupProgramChecked d lines)
      (lines.foldl Decoder.setup d, setupProgram d lines) (lines.foldl Decoder.setup d).Packed := by
  induction lines generalizing d with
  | nil => exact returns_ok h
  | cons line lines ih =>
      obtain ⟨htasks, hcgroups⟩ := setups_length_le (d.setup line) lines
      refine (setupChecked_returns h line fun hm' => ?_).bind fun hpacked => ?_
      · exact ⟨(hm hm').1.mono htasks, (hm hm').2.mono hcgroups⟩
      · exact (ih hpacked hm).bind fun hlast => returns_ok hlast

theorem Decoder.Roomy.succ {k : ℕ} (h : d.Roomy k) : d.Roomy (k + 1) :=
  ⟨h.ntasks.trans (Nat.lt_succ_self _), h.cgroups⟩

theorem Decoder.Roomy.length_lt {k : ℕ} (h : d.Roomy k) : d.cgroups.length + 1 < 2 ^ 64 := by
  have hfits := h.cgroups
  unfold Fits stringBytes at hfits
  omega

/-- A new cgroup goes into the table. -/
theorem createCgroup_returns {k : ℕ} (hd : d.Roomy k) (hm : m → d.Spare 1) (path : Line) :
    Returns m (d.pushCgroup path >>= fun d' => .ok (d', say "cgroup-create".toList [path]))
      ({ d with cgroups := d.cgroups ++ [path] }, say "cgroup-create".toList [path])
      (Decoder.Roomy { d with cgroups := d.cgroups ++ [path] } k) := by
  refine (pushCgroup_returns d path fun hm' => (hm hm').2).bind fun hfits =>
    returns_ok ⟨hd.ntasks, ?_⟩
  simpa using hfits

/-- A record whose verb needs a task that is there, or none. -/
theorem recordChecked_returns {k : ℕ} (hcpus : bug.Sized)
    (hverbs : Fits stringBytes bug.verbs.length) (hk : k < maxRecords) (hd : d.Roomy k)
    (hm : m → d.Spare 1) (r : Record) :
    Returns m (bug.recordChecked bug.testCpus d r) (bug.record d r)
      ((bug.record d r).1.Roomy (k + 1)) := by
  have hsame : d.Roomy (k + 1) := hd.succ
  unfold Bug.recordChecked Bug.record
  simp only [verbChecked_eq hverbs, bind, Except.bind, pure, Except.pure]
  by_cases hidle : ((armOf (bug.verbAt r)).needsTask && d.alive.isEmpty) = true
  · simp only [if_pos hidle]
    exact returns_ok hsame
  simp only [if_neg hidle]
  have htask (harm : (armOf (bug.verbAt r)).needsTask = true) (a : ℕ) :
      d.taskChecked a = .ok (d.task a) := by
    refine taskChecked_eq (fun hnone => hidle ?_) a
    simp [harm, hnone]
  cases harm : armOf (bug.verbAt r) with
  | tick => exact returns_ok hsame
  | create =>
      have hroom := hd.ntasks
      unfold maxRecords at hk
      refine (pushTask_returns (d := d) (by omega) fun hm' => (hm hm').1).bind fun _ =>
        returns_ok ⟨?_, hd.cgroups⟩
      simp only [Decoder.addTasks]
      omega
  | cpuFreq =>
      simp only [cpuChecked_eq hcpus, add_ok (show 1 + r.b.toNat % 1024 < 2 ^ 64 by omega)]
      exact returns_ok hsame
  | policyFair =>
      simp only [htask (by rw [harm]; rfl), rem_ok (show 0 < fairPolicies.length by decide),
        index_ok (Nat.mod_lt r.b.toNat (show 0 < fairPolicies.length by decide)) [],
        subInt_ok (show -2 ^ 31 ≤ (r.c.toNat : ℤ) % 40 - 20 ∧ (r.c.toNat : ℤ) % 40 - 20 < 2 ^ 31 by
          omega)]
      exact returns_ok hsame
  | policyRt =>
      simp only [htask (by rw [harm]; rfl), rem_ok (show 0 < rtPolicies.length by decide),
        index_ok (Nat.mod_lt r.b.toNat (show 0 < rtPolicies.length by decide)) [],
        add_ok (show 1 + r.c.toNat % 99 < 2 ^ 64 by omega)]
      exact returns_ok hsame
  | affinity =>
      simp only [cpusChecked_eq hcpus, htask (by rw [harm]; rfl)]
      exact returns_ok hsame
  | kill =>
      simp only [htask (by rw [harm]; rfl)]
      exact returns_ok ⟨hsame.ntasks, hsame.cgroups⟩
  | cgroupCreate =>
      by_cases hroot : d.cgroups = [] ∨ r.b.toNat % 2 = 0
      · simp only [Decoder.newCgroup, cgroupPath, if_pos hroot, add_ok hd.length_lt]
        exact createCgroup_returns hsame hm _
      · have hsome : d.cgroups ≠ [] := fun hnone => hroot (Or.inl hnone)
        simp only [Decoder.newCgroup, cgroupPath, if_neg hroot, cgroupChecked_eq hsome,
          add_ok hd.length_lt]
        exact createCgroup_returns hsame hm _
  | cgroupWeight =>
      by_cases hnone : d.cgroups = []
      · simp only [if_pos hnone]
        exact returns_ok hsame
      · simp only [if_neg hnone, cgroupChecked_eq hnone,
          add_ok (show 1 + (r.b.toNat * 256 + r.c.toNat) % 10000 < 2 ^ 64 by omega)]
        exact returns_ok hsame
  | cgroupDestroy =>
      by_cases hnone : d.cgroups = []
      · simp only [if_pos hnone]
        exact returns_ok hsame
      · simp only [if_neg hnone, cgroupChecked_eq hnone]
        exact returns_ok hsame
  | cgroupAttach =>
      simp only [add_ok hd.length_lt, rem_ok (Nat.succ_pos d.cgroups.length),
        htask (by rw [harm]; rfl)]
      have hlt : r.b.toNat % (d.cgroups.length + 1) < d.cgroups.length + 1 :=
        Nat.mod_lt _ (Nat.succ_pos _)
      rcases hpick : r.b.toNat % (d.cgroups.length + 1) with _ | g
      · exact returns_ok hsame
      · have hindex : index d.cgroups (g + 1 - 1) = .ok (d.cgroups.getD g []) :=
          index_ok (by omega) []
        simp only [if_neg (Nat.succ_ne_zero g), sub_ok (Nat.le_add_left 1 g), hindex]
        exact returns_ok hsame
  | other =>
      simp only [htask (by rw [harm]; rfl)]
      exact returns_ok hsame

/-- A record makes one task or one cgroup at most. -/
theorem record_length_le (bug : Bug) (d : Decoder) (r : Record) :
    (bug.record d r).1.alive.length ≤ d.alive.length + 1 ∧
      (bug.record d r).1.cgroups.length ≤ d.cgroups.length + 1 := by
  rw [record_eq]
  cases bug.command d r with
  | kill task =>
      exact ⟨(List.length_filter_le _ _).trans (Nat.le_succ _), Nat.le_succ _⟩
  | create => simp [Decoder.after, Decoder.addTasks]
  | cgroupCreate parent n => simp [Decoder.after]
  | _ => exact ⟨Nat.le_succ _, Nat.le_succ _⟩

theorem Decoder.Spare.record {n : ℕ} (h : d.Spare (n + 1)) (r : Record) :
    (bug.record d r).1.Spare n := by
  obtain ⟨htasks, hcgroups⟩ := record_length_le bug d r
  exact ⟨h.1.mono (by omega), h.2.mono (by omega)⟩

theorem recordProgramChecked_returns {k : ℕ} (hcpus : bug.Sized)
    (hverbs : Fits stringBytes bug.verbs.length) (hk : k + rs.length ≤ maxRecords)
    (hd : d.Roomy k) (hm : m → d.Spare rs.length) :
    Returns m (recordProgramChecked bug bug.testCpus d rs)
      (rs.foldl (fun d r => (bug.record d r).1) d, recordProgram bug d rs) True := by
  induction rs generalizing d k with
  | nil => exact returns_ok trivial
  | cons r rs ih =>
      rw [List.length_cons] at hk hm
      have hone (hm' : m) : d.Spare 1 :=
        ⟨(hm hm').1.mono (by omega), (hm hm').2.mono (by omega)⟩
      refine (recordChecked_returns hcpus hverbs (by omega) hd hone r).bind fun hroom => ?_
      exact (ih (by omega) hroom fun hm' => (hm hm').record r).bind fun _ => returns_ok trivial

/-- The entry's verbs fit into memory, and the tasks and cgroups of its setup with one more of each
for every record. -/
def Bug.InMemory (bug : Bug) (bytes : List UInt8) : Prop :=
  Fits stringBytes bug.verbs.length ∧
    (bug.setup.foldl Decoder.setup Decoder.start).Spare ((chunks bytes).take maxRecords).length

theorem decodeChecked_cases (bytes : List UInt8) (hcpus : bug.Sized) :
    Returns (bug.InMemory bytes) (decodeChecked bytes bug) (decode bytes bug) True := by
  have htwo := hcpus.two_le
  have hstart : Decoder.start.Packed := ⟨rfl, by decide, by decide⟩
  unfold decodeChecked decode
  by_cases hverbs : Fits stringBytes bug.verbs.length
  · have hsub : sub bug.numCpus 1 = .ok bug.testCpus := sub_ok (by omega)
    simp only [hverbs, not_true_eq_false, if_false, hsub, bind, Except.bind]
    have hsetup (hm : bug.InMemory bytes) :
        (bug.setup.foldl Decoder.setup Decoder.start).Spare 0 :=
      ⟨hm.2.1.mono (by omega), hm.2.2.mono (by omega)⟩
    refine (setupProgramChecked_returns hstart bug.setup hsetup).bind fun hpacked => ?_
    have hlen : 0 + ((chunks bytes).take maxRecords).length ≤ maxRecords := by
      rw [List.length_take]
      omega
    exact (recordProgramChecked_returns hcpus hverbs hlen hpacked.roomy And.right).bind
      fun _ => returns_ok trivial
  · simp only [hverbs, not_false_eq_true, if_true]
    exact Or.inr ⟨rfl, fun hm => hverbs hm.1⟩

/-- The loops return what the decoder describes, or run out of memory. -/
theorem decodeChecked_returns (bytes : List UInt8) (hcpus : bug.Sized) :
    decodeChecked bytes bug = .ok (decode bytes bug) ∨
      decodeChecked bytes bug = .error .outOfMemory :=
  Or.imp And.left And.left (decodeChecked_cases bytes hcpus)

theorem decodeChecked_inMemory {bytes : List UInt8} (hcpus : bug.Sized) (h : bug.InMemory bytes) :
    decodeChecked bytes bug = .ok (decode bytes bug) :=
  (decodeChecked_cases bytes hcpus).elim And.left fun hnot => absurd h hnot.2

/-- Decoding stops on no index, remainder, sum, difference or shift, nor at all when its vectors fit
into memory; and every fuzzed line is in range and refers to what the lines before it have made. -/
theorem decode_in_range (bytes : List UInt8) (bug : Bug) (hcpus : bug.Sized)
    (hverbs : bug.KnownVerbs) :
    (decodeChecked bytes bug = .ok (decode bytes bug) ∨
        decodeChecked bytes bug = .error .outOfMemory) ∧
      (bug.InMemory bytes → decodeChecked bytes bug = .ok (decode bytes bug)) ∧
      ∀ before line post, lines bytes bug = before ++ line :: post →
        bug.checks.length + bug.setup.length ≤ before.length →
          ∃ c : Command, line = c.line ∧ c.Allowed bug
            (LiveTask before (before.drop (bug.checks.length + bug.setup.length)))
            (MadeCgroup before) :=
  ⟨decodeChecked_returns bytes hcpus, decodeChecked_inMemory hcpus,
    fun _ _ _ hsplit hfuzzed => lines_refer hcpus.two_le hverbs hsplit hfuzzed⟩

/-- Two tasks, a kill of the first and a record that can then only name the second. -/
theorem decode_in_range_after_kill :
    ∃ before post, lines [5, 0, 0, 0, 3, 0, 0, 0] (plainBug ["create 2"] ["kill"]) =
        before ++ "pause 2".toList :: post ∧
      ∃ c : Command, "pause 2".toList = c.line ∧
        c.Allowed (plainBug ["create 2"] ["kill"])
          (LiveTask before (before.drop 1)) (MadeCgroup before) := by
  refine ⟨["create 2".toList, "kill 1".toList], List.replicate 3 "tick".toList, by decide, ?_⟩
  exact (decode_in_range [5, 0, 0, 0, 3, 0, 0, 0] (plainBug ["create 2"] ["kill"])
    ⟨by decide, by decide⟩ (by unfold Bug.KnownVerbs; decide)).2.2 _ _
      (List.replicate 3 "tick".toList) (by decide) (by decide)

end KStep.Fuzz
