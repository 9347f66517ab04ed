import KStep.FuzzReach

/-!
# Exactly what the fuzzer can say

The text of a line determines its command, so a command that three bytes cannot pick has no record:
the sayable commands are those whose verb stands among the first 256 of the table and whose
arguments fit.
-/

namespace KStep.Fuzz

open CString Cli

variable {bug : Bug} {d : Decoder} {r : Record} {c c' : Command}

/-- A number ends where a separator starts. -/
theorem dec_append_inj {sep : Char} (hsep : sep.isDigit = false) {m n : ℕ} {s t : List Char}
    (h : dec m ++ sep :: s = dec n ++ sep :: t) : m = n ∧ s = t := by
  have hcut (n : ℕ) (t : List Char) : strsep (· == sep) (dec n ++ sep :: t) = (dec n, some t) :=
    strsep_token_append (fun ch hch => dec_ne hsep hch) (beq_self_eq_true sep)
  have hsame := (hcut m s).symm.trans ((congrArg _ h).trans (hcut n t))
  rw [Prod.mk.injEq, Option.some.injEq] at hsame
  exact ⟨dec_injective hsame.1, hsame.2⟩

theorem dec_ne_append {sep : Char} (hsep : sep.isDigit = false) {m n : ℕ} {s : List Char} :
    dec m ≠ dec n ++ sep :: s := by
  intro h
  have hmem : sep ∈ dec m := by
    rw [h]
    simp
  exact absurd ((dec_digits hmem).symm.trans hsep) (by simp)

theorem cpuText_cons (n m : ℕ) (l : List ℕ) :
    cpuText (n :: m :: l) = dec n ++ ',' :: cpuText (m :: l) := by
  simp only [cpuText, List.map_cons, List.intercalate_cons_cons, List.append_assoc,
    List.singleton_append]

theorem cpuText_injective : ∀ {l l' : List ℕ}, l ≠ [] → l' ≠ [] → cpuText l = cpuText l' → l = l'
  | [], _, hne, _, _ => absurd rfl hne
  | _, [], _, hne, _ => absurd rfl hne
  | [n], [n'], _, _, h => by
      simp only [cpuText, List.map_cons, List.map_nil, List.intercalate_singleton] at h
      rw [dec_injective h]
  | [n], n' :: m' :: l', _, _, h => by
      rw [cpuText_cons] at h
      simp only [cpuText, List.map_cons, List.map_nil, List.intercalate_singleton] at h
      exact absurd h (dec_ne_append (by decide))
  | n :: m :: l, [n'], _, _, h => by
      rw [cpuText_cons] at h
      simp only [cpuText, List.map_cons, List.map_nil, List.intercalate_singleton] at h
      exact absurd h.symm (dec_ne_append (by decide))
  | n :: m :: l, n' :: m' :: l', _, _, h => by
      rw [cpuText_cons, cpuText_cons] at h
      obtain ⟨rfl, hrest⟩ := dec_append_inj (by decide) h
      rw [cpuText_injective (List.cons_ne_nil _ _) (List.cons_ne_nil _ _) hrest]

theorem verbAt_mem_take (bug : Bug) (r : Record) : bug.verbAt r ∈ bug.table.take 256 := by
  have hpos : 0 < (generalVerbs ++ bug.verbs).length := by simp [generalVerbs]
  have hlt := Nat.mod_lt r.verb.toNat hpos
  have hbyte : r.verb.toNat % (generalVerbs ++ bug.verbs).length < 256 :=
    (Nat.mod_le _ _).trans_lt r.verb.toNat_lt
  simp only [Bug.verbAt, List.getD_eq_getElem _ _ hlt]
  exact List.mem_take_iff_getElem.mpr ⟨_, by simp only [Bug.table]; omega, rfl⟩

theorem tick_mem_take (bug : Bug) : "tick".toList ∈ bug.table.take 256 := by
  simp [Bug.table, generalVerbs]

theorem alike_verb (h : c.Alike c') : c.verb = c'.verb := by
  rcases h with rfl | ⟨t, cpus, cpus', rfl, rfl, -⟩
  · rfl
  · rfl

/-- The words of a record's line and of a command with the same line are the same. -/
theorem line_cut (hverbs : ∀ verb ∈ bug.verbs, verb ∈ cliVerbs)
    (hc : c.Allowed bug (· ∈ d.alive) (· ∈ d.cgroups)) (halike : c'.Alike c)
    (hline : (bug.record d r).2 = c'.line) :
    (bug.command d r).verb = c.verb ∧
      ((bug.command d r).args.flatMap fun arg => ' ' :: arg).tail =
        (c'.args.flatMap fun arg => ' ' :: arg).tail := by
  have hspace : isspace ' ' = true := by decide
  have hclean : ∀ ch ∈ (bug.command d r).verb, (ch == ' ') = false := by
    have hword : IsWord (bug.command d r).verb := by
      rcases command_verb bug d r with h | h
      · rw [h]
        exact verbAt_word hverbs r
      · rw [h]
        exact show IsWord "tick".toList by decide
    intro ch hch
    rw [beq_eq_false_iff_ne]
    rintro rfl
    exact absurd ((hword.2 _ hch).symm.trans hspace) (by simp)
  have hclean' : ∀ ch ∈ c'.verb, (ch == ' ') = false := by
    rw [alike_verb halike]
    exact verb_clean hc
  rw [record_eq] at hline
  have hsame := (splitOnce_say hclean _).symm.trans
    ((congrArg splitOnce hline).trans (splitOnce_say hclean' _))
  rw [Prod.mk.injEq] at hsame
  exact ⟨hsame.1.trans (alike_verb halike), hsame.2⟩

/-- A record whose line is a command's runs the arm of that command. -/
theorem command_of_line (hd : d.Small) (hc : c.Allowed bug (· ∈ d.alive) (· ∈ d.cgroups))
    (hverb : (bug.command d r).verb = c.verb) (htick : c.arm ≠ .tick) :
    bug.command d r = bug.armCommand d r c.arm := by
  rcases command_verb bug d r with h | h
  · refine command_of_verb hd.alive ?_
    rw [← h, hverb, armOf_verb hc]
  · refine absurd ?_ htick
    rw [← armOf_verb hc, ← hverb, h]
    rfl

theorem cpuFreq_fits {cpu scale : ℕ} (hd : d.Small)
    (hverbs : ∀ verb ∈ bug.verbs, verb ∈ cliVerbs)
    (hc : (Command.cpuFreq cpu scale).Allowed bug (· ∈ d.alive) (· ∈ d.cgroups))
    (halike : c'.Alike (.cpuFreq cpu scale)) (hline : (bug.record d r).2 = c'.line) :
    scale ≤ 256 := by
  obtain ⟨hverb, htext⟩ := line_cut hverbs hc halike hline
  obtain rfl : c' = .cpuFreq cpu scale := by
    rcases halike with h | ⟨_, _, _, _, h, _⟩
    · exact h
    · cases h
  rw [command_of_line hd hc hverb (by simp [Command.arm])] at htext
  simp only [Bug.armCommand, Command.arm, Command.args, List.flatMap_cons, List.flatMap_nil,
    List.append_nil, List.cons_append, List.tail_cons] at htext
  have hscale := dec_injective (dec_append_inj (by decide) htext).2
  have hbyte := r.b.toNat_lt
  omega

/-- One byte picks none but the first eight test CPUs. -/
theorem cpus_le_eight (hcpus : bug.Sized) {b : ℕ} (hb : b < 256) : ∀ cpu ∈ bug.cpus b, cpu ≤ 8 := by
  have hbit {i : ℕ} (h : b.testBit i = true) : i < 8 := by
    by_contra hge
    have hpow : 2 ^ 8 ≤ 2 ^ i := Nat.pow_le_pow_right (by decide) (Nat.le_of_not_lt hge)
    rw [Nat.testBit_lt_two_pow (by omega)] at h
    cases h
  intro cpu hcpu
  unfold Bug.cpus at hcpu
  simp only at hcpu
  split_ifs at hcpu with hnone
  · rw [List.mem_singleton.mp hcpu, Bug.cpu]
    have hlt := Nat.mod_lt b hcpus.testCpus.1
    by_cases hmany : bug.testCpus ≤ 8
    · omega
    · have hzero : b = 0 := by
        refine Nat.zero_of_testBit_eq_false fun i => ?_
        by_contra hset
        rw [Bool.not_eq_false] at hset
        have hi := hbit hset
        have hmem : i ∈ (List.range bug.testCpus).filter fun i => b.testBit i :=
          List.mem_filter.mpr ⟨List.mem_range.mpr (by omega), hset⟩
        rw [hnone] at hmem
        cases hmem
      rw [hzero, Nat.zero_mod]
      decide
  · obtain ⟨i, hi, rfl⟩ := List.mem_map.mp hcpu
    exact hbit (List.mem_filter.mp hi).2

theorem affinity_fits {t : ℕ} {cpus : List ℕ} (hcpus : bug.Sized) (hd : d.Small)
    (hverbs : ∀ verb ∈ bug.verbs, verb ∈ cliVerbs)
    (hc : (Command.affinity t cpus).Allowed bug (· ∈ d.alive) (· ∈ d.cgroups))
    (halike : c'.Alike (.affinity t cpus)) (hline : (bug.record d r).2 = c'.line) :
    ∀ cpu ∈ cpus, cpu ≤ 8 := by
  obtain ⟨hverb, htext⟩ := line_cut hverbs hc halike hline
  obtain ⟨cpus', rfl, hsame⟩ : ∃ cpus', c' = .affinity t cpus' ∧
      ∀ cpu, cpu ∈ cpus' ↔ cpu ∈ cpus := by
    rcases halike with h | ⟨_, cpus', _, h', h, hsame⟩
    · exact ⟨cpus, h, fun _ => Iff.rfl⟩
    · cases h
      exact ⟨cpus', h', hsame⟩
  have hne : cpus' ≠ [] := by
    obtain ⟨cpu, hcpu⟩ := List.exists_mem_of_ne_nil cpus hc.2.1
    exact List.ne_nil_of_mem ((hsame cpu).mpr hcpu)
  rw [command_of_line hd hc hverb (by simp [Command.arm])] at htext
  simp only [Bug.armCommand, Command.arm, Command.args, List.flatMap_cons, List.flatMap_nil,
    List.append_nil, List.cons_append, List.tail_cons] at htext
  have hpicked := cpuText_injective (cpus_test hcpus.two_le _).1 hne
    (dec_append_inj (by decide) htext).2
  intro cpu hcpu
  refine cpus_le_eight hcpus r.b.toNat_lt cpu ?_
  rw [hpicked]
  exact (hsame cpu).mpr hcpu

theorem cgroupCreate_fits {parent : Line} (hd : d.Small)
    (hverbs : ∀ verb ∈ bug.verbs, verb ∈ cliVerbs)
    (hc : (Command.cgroupCreate parent (d.cgroups.length + 1)).Allowed bug (· ∈ d.alive)
      (· ∈ d.cgroups))
    (halike : c'.Alike (.cgroupCreate parent (d.cgroups.length + 1)))
    (hline : (bug.record d r).2 = c'.line) :
    parent = [] ∨ ∃ i, d.cgroups[i]? = some parent ∧ (i % 2 = 1 ∨ d.cgroups.length % 2 = 1) := by
  obtain ⟨hverb, htext⟩ := line_cut hverbs hc halike hline
  obtain rfl : c' = .cgroupCreate parent (d.cgroups.length + 1) := by
    rcases halike with h | ⟨_, _, _, _, h, _⟩
    · exact h
    · cases h
  rw [command_of_line hd hc hverb (by simp [Command.arm])] at htext
  simp only [Bug.armCommand, Command.arm, Command.args, List.flatMap_cons, List.flatMap_nil,
    List.append_nil, List.tail_cons, cgroupPath, List.append_assoc,
    List.append_cancel_right_eq] at htext
  split_ifs at htext with hroot
  · exact Or.inl htext.symm
  · have hsome : d.cgroups ≠ [] := fun hnone => hroot (Or.inl hnone)
    have hodd : r.b.toNat % 2 = 1 := by
      have : ¬ r.b.toNat % 2 = 0 := fun heven => hroot (Or.inr heven)
      omega
    have hlt := Nat.mod_lt r.b.toNat (List.length_pos_of_ne_nil hsome)
    refine Or.inr ⟨r.b.toNat % d.cgroups.length, ?_, ?_⟩
    · rw [← htext, Decoder.cgroup, List.getD_eq_getElem _ _ hlt, List.getElem?_eq_getElem hlt]
    · by_cases hlen : d.cgroups.length % 2 = 1
      · exact Or.inr hlen
      · refine Or.inl ?_
        rw [Nat.mod_mod_of_dvd _ (Nat.dvd_of_mod_eq_zero (by omega))]
        exact hodd

/-- A command the host could choose has a record, up to the spelling of a CPU list, exactly when its
verb stands among the first 256 of the table and its arguments fit the bytes. -/
theorem sayable_iff (hcpus : bug.Sized) (hverbs : ∀ verb ∈ bug.verbs, verb ∈ cliVerbs)
    (hd : d.Small) (hc : c.Choosable bug d) :
    (∃ (r : Record) (c' : Command), c'.Alike c ∧ (bug.record d r).2 = c'.line) ↔
      c.verb ∈ bug.table.take 256 ∧ c.Fits d := by
  constructor
  · rintro ⟨r, c', halike, hline⟩
    refine ⟨?_, ?_⟩
    · rw [← (line_cut hverbs hc.allowed halike hline).1]
      rcases command_verb bug d r with h | h
      · rw [h]
        exact verbAt_mem_take bug r
      · rw [h]
        exact tick_mem_take bug
    · have hallowed := hc.allowed
      cases c with
      | cpuFreq cpu scale => exact cpuFreq_fits hd hverbs hallowed halike hline
      | affinity t cpus => exact affinity_fits hcpus hd hverbs hallowed halike hline
      | cgroupCreate parent n =>
          obtain rfl := hc.named parent n rfl
          exact cgroupCreate_fits hd hverbs hallowed halike hline
      | _ => trivial
  · rintro ⟨hverb, hfits⟩
    obtain ⟨r, halike⟩ := exists_record hcpus hd hc hverb hfits
    exact ⟨r, bug.command d r, halike, by rw [record_eq]⟩

def tenCpus : Bug := ⟨10, [], ["cpu-freq".toList], ["create".toList]⟩

def oneTask : Decoder := ⟨[1], 1, []⟩

theorem oneTask_small : oneTask.Small := ⟨by decide, by decide, by decide⟩

theorem tenCpus_verbs : ∀ verb ∈ tenCpus.verbs, verb ∈ cliVerbs := by decide

/-- The greatest scale a byte reaches. -/
theorem sayable_scale : ∃ (r : Record) (c' : Command), c'.Alike (.cpuFreq 9 256) ∧
    (tenCpus.record oneTask r).2 = c'.line :=
  (sayable_iff (c := .cpuFreq 9 256) ⟨by decide, by decide⟩ tenCpus_verbs oneTask_small
    ⟨⟨⟨by decide, by decide⟩, by decide, by decide⟩, fun _ _ h => by cases h⟩).mpr
      ⟨by decide, le_refl 256⟩

/-- No record gives half of the full frequency, and none allows the task on the ninth CPU. -/
theorem unsayable :
    (Command.cpuFreq 1 512).Choosable tenCpus oneTask ∧
      (Command.affinity 1 [9]).Choosable tenCpus oneTask ∧
      (¬ ∃ (r : Record) (c' : Command), c'.Alike (.cpuFreq 1 512) ∧
        (tenCpus.record oneTask r).2 = c'.line) ∧
      ¬ ∃ (r : Record) (c' : Command), c'.Alike (.affinity 1 [9]) ∧
        (tenCpus.record oneTask r).2 = c'.line := by
  have hfreq : (Command.cpuFreq 1 512).Choosable tenCpus oneTask :=
    ⟨⟨⟨by decide, by decide⟩, by decide, by decide⟩, fun _ _ h => by cases h⟩
  have haffinity : (Command.affinity 1 [9]).Choosable tenCpus oneTask := by
    refine ⟨⟨by decide, by decide, fun cpu hcpu => ?_⟩, fun _ _ h => by cases h⟩
    rw [List.mem_singleton.mp hcpu]
    exact ⟨by decide, by decide⟩
  refine ⟨hfreq, haffinity, ?_, ?_⟩
  · rintro ⟨r, c', halike, hline⟩
    have hscale := cpuFreq_fits oneTask_small tenCpus_verbs hfreq.allowed halike hline
    omega
  · rintro ⟨r, c', halike, hline⟩
    have hcpus := affinity_fits ⟨by decide, by decide⟩ oneTask_small tenCpus_verbs
      haffinity.allowed halike hline 9 (by simp)
    omega

end KStep.Fuzz
