import KStep.FuzzSetup

/-!
# Host and guest number the tasks alike

Past the setup only a `create` record adds a task, one on either side, so the two numberings agree
after every line exactly when they do over the setup and the program stays within the guest's table.
-/

namespace KStep.Fuzz

open CString Trim Cli

def createRecords (bug : Bug) (rs : List Record) : ℕ :=
  rs.countP fun r => bug.verbAt r == "create".toList

def cliVerbs : List Line :=
  (commands plainView).map (fun e => e.1.toList) ++ taskVerbs.map fun e => e.1.toList

variable {world : ℕ → CliView} {v : CliView} {i g : ℕ} {d : Decoder} {bug : Bug} {prog : Program}
  {r : Record}

theorem Decoder.Numbered.record (hd : d.Numbered) (r : Record) : (bug.record d r).1.Numbered := by
  unfold Bug.record
  simp only
  split
  · exact hd
  · split
    · exact hd
    · exact hd.addTasks 1
    · exact hd
    · exact hd
    · exact hd
    · exact hd
    · exact fun n hn => hd n (List.mem_of_mem_filter hn)
    · exact hd
    · split <;> exact hd
    · split <;> exact hd
    · split <;> exact hd
    · exact hd

theorem say_tail (args : List (List Char)) : (args.flatMap fun arg => ' ' :: arg) = [] ∨
    ∃ t, (args.flatMap fun arg => ' ' :: arg) = ' ' :: t := by
  rcases args with _ | ⟨arg, args⟩
  · exact Or.inl rfl
  · exact Or.inr ⟨_, rfl⟩

theorem createArgOf_say {verb : Line} (hverb : IsWord verb) (hne : verb ≠ "create".toList)
    (args : List (List Char)) : createArgOf (say verb args) = none :=
  createArgOf_word hverb hne (say_tail args)

theorem armOf_create {verb : Line} : armOf verb = .create ↔ verb = "create".toList := by
  constructor
  · intro h
    obtain ⟨arm, harm, rfl⟩ : ∃ arm, arms.lookup verb = some arm ∧ arm = .create := by
      rcases hlookup : arms.lookup verb with _ | arm
      · simp [armOf, hlookup] at h
      · exact ⟨arm, rfl, by simpa [armOf, hlookup] using h⟩
    obtain ⟨l, l', harms, -⟩ := List.lookup_eq_some_iff.mp harm
    have hmem : (verb, Arm.create) ∈ arms := by simp [harms]
    simpa [arms] using hmem
  · rintro rfl
    rfl

/-- A record creates one task, on both sides, if its verb is `create`, and none otherwise. -/
theorem record_cases (hword : IsWord (bug.verbAt r)) :
    bug.verbAt r = "create".toList ∧ bug.record d r = (d.addTasks 1, "create".toList) ∨
      bug.verbAt r ≠ "create".toList ∧ createArgOf (bug.record d r).2 = none ∧
        (bug.record d r).1.ntasks = d.ntasks := by
  have htick : createArgOf "tick".toList = none := by decide
  by_cases hverb : bug.verbAt r = "create".toList
  · refine Or.inl ⟨hverb, ?_⟩
    have harm : armOf (bug.verbAt r) = .create := armOf_create.mpr hverb
    simp [Bug.record, harm, Arm.needsTask]
  · refine Or.inr ⟨hverb, ?_⟩
    have harm : armOf (bug.verbAt r) ≠ .create := fun h => hverb (armOf_create.mp h)
    unfold Bug.record
    simp only
    split
    · exact ⟨htick, rfl⟩
    · split
      · exact ⟨htick, rfl⟩
      · exact absurd ‹_› harm
      · exact ⟨createArgOf_say (by decide) (by decide) _, rfl⟩
      · exact ⟨createArgOf_say (by decide) (by decide) _, rfl⟩
      · exact ⟨createArgOf_say (by decide) (by decide) _, rfl⟩
      · exact ⟨createArgOf_say (by decide) (by decide) _, rfl⟩
      · exact ⟨createArgOf_say (by decide) (by decide) _, rfl⟩
      · exact ⟨createArgOf_say (by decide) (by decide) _, rfl⟩
      · split
        · exact ⟨htick, rfl⟩
        · exact ⟨createArgOf_say (by decide) (by decide) _, rfl⟩
      · split
        · exact ⟨htick, rfl⟩
        · exact ⟨createArgOf_say (by decide) (by decide) _, rfl⟩
      · split
        · exact ⟨createArgOf_say (by decide) (by decide) _, rfl⟩
        · exact ⟨createArgOf_say (by decide) (by decide) _, rfl⟩
      · exact ⟨createArgOf_say hword hverb _, rfl⟩

theorem verbAt_mem (bug : Bug) (r : Record) : bug.verbAt r ∈ generalVerbs ++ bug.verbs := by
  have hlt : r.verb.toNat % (generalVerbs ++ bug.verbs).length <
      (generalVerbs ++ bug.verbs).length := Nat.mod_lt _ (by simp [generalVerbs])
  simp only [Bug.verbAt, List.getD_eq_getElem?_getD, List.getElem?_eq_getElem hlt, Option.getD_some]
  exact List.getElem_mem hlt

theorem verbAt_word (hverbs : ∀ verb ∈ bug.verbs, verb ∈ cliVerbs) (r : Record) :
    IsWord (bug.verbAt r) := by
  have hgeneral : ∀ verb ∈ generalVerbs, IsWord verb := by decide
  have hcli : ∀ verb ∈ cliVerbs, IsWord verb := by decide
  rcases List.mem_append.mp (verbAt_mem bug r) with h | h
  · exact hgeneral _ h
  · exact hcli _ (hverbs _ h)

theorem create_record_iff (hg : g ≤ kstepShmTasks) :
    tableStep (ids g) (v, (g + 1 + ·), "create".toList) = some (ids (g + 1)) ↔
      g + 1 ≤ kstepShmTasks := by
  have hlen : (ids g).length = g := by simp [ids]
  have harg : createArgOf "create".toList = some none := by decide
  have hargs : createArgs v none = .ok (1, none) := rfl
  rw [tableStep_create (hlen.symm ▸ hg) harg hargs, hlen, Int.toNat_one, ids_append]
  have hwrap : ¬ (2 ^ 31 : ℤ) ≤ g + 1 := by
    unfold kstepShmTasks at hg
    omega
  have hfits : 1 ≤ (1 : ℤ) ∧ (g : ℤ) + 1 ≤ kstepShmTasks ↔ g + 1 ≤ kstepShmTasks := by omega
  simp only [if_neg hwrap, hfits]
  split_ifs with h
  · exact iff_of_true rfl h
  · rw [Option.some.injEq, ids_inj]
    omega

theorem createRecords_cons (r : Record) (rs : List Record) : createRecords bug (r :: rs) =
    createRecords bug rs + if bug.verbAt r = "create".toList then 1 else 0 := by
  simp only [createRecords, List.countP_cons, beq_iff_eq]

/-- The records, with any program after them: the guest follows until its table is full. -/
theorem agrees_records_iff {rs : List Record} (hverbs : ∀ verb ∈ bug.verbs, verb ∈ cliVerbs)
    (hg : d.ntasks ≤ kstepShmTasks) (hd : d.Numbered) :
    Agrees world i d.ntasks (recordProgram bug d rs ++ prog) ↔
      d.ntasks + createRecords bug rs ≤ kstepShmTasks ∧
        Agrees world (i + rs.length) (rs.foldl (fun d r => (bug.record d r).1) d).ntasks prog := by
  induction rs generalizing d i with
  | nil => simp [recordProgram, createRecords, hg]
  | cons r rs ih =>
      have hindex : i + (r :: rs).length = i + 1 + rs.length := by
        rw [List.length_cons]
        omega
      rw [hindex, List.foldl_cons, recordProgram, List.cons_append, agrees_cons (hd.record r),
        createRecords_cons]
      rcases record_cases (d := d) (verbAt_word hverbs r) with ⟨hverb, hrec⟩ | ⟨hverb, hnone, hsame⟩
      · have hnext : (bug.record d r).1.ntasks = d.ntasks + 1 := by
          rw [hrec]
          rfl
        have hline : (bug.record d r).2 = "create".toList := by rw [hrec]
        rw [if_pos hverb, hline, hnext, create_record_iff hg]
        by_cases hroom : d.ntasks + 1 ≤ kstepShmTasks
        · have hih := ih (d := (bug.record d r).1) (i := i + 1) (hnext ▸ hroom) (hd.record r)
          rw [hnext] at hih
          rw [hih, and_iff_right hroom, Nat.add_assoc, Nat.add_comm 1]
        · exact iff_of_false (fun h => hroom h.1) fun h => hroom (by have := h.1; omega)
      · have hih := ih (d := (bug.record d r).1) (i := i + 1) (hsame ▸ hg) (hd.record r)
        rw [hsame] at hih ⊢
        rw [tableStep_other hnone, if_neg hverb, Nat.add_zero, hih]
        simp

theorem Decoder.start_numbered : Decoder.start.Numbered := by
  intro n hn
  cases hn

theorem agrees_checks_iff (checks : List Line) :
    Agrees world i 0 (checks.map (fun c => (say "check".toList [c], Decoder.start)) ++ prog) ↔
      Agrees world (i + checks.length) 0 prog := by
  induction checks generalizing i with
  | nil => rfl
  | cons c checks ih =>
      have hnone : createArgOf (say "check".toList [c]) = none :=
        createArgOf_say (by decide) (by decide) _
      rw [List.map_cons, List.cons_append, agrees_cons Decoder.start_numbered,
        tableStep_other hnone]
      have hindex : i + (c :: checks).length = i + 1 + checks.length := by
        rw [List.length_cons]
        omega
      rw [hindex, ← ih]
      exact and_iff_right rfl

theorem agrees_ticks (hd : d.Numbered) (k : ℕ) :
    Agrees world i d.ntasks (List.replicate k ("tick".toList, d)) := by
  induction k generalizing i with
  | zero => trivial
  | succ k ih =>
      rw [List.replicate_succ, agrees_cons hd]
      exact ⟨tableStep_other (by decide), ih⟩

theorem setup_numbered (hd : d.Numbered) (lines : List Line) :
    (lines.foldl Decoder.setup d).Numbered := by
  induction lines generalizing d with
  | nil => exact hd
  | cons line lines ih => exact ih (hd.setup line)

theorem records_numbered (hd : d.Numbered) (rs : List Record) :
    (rs.foldl (fun d r => (bug.record d r).1) d).Numbered := by
  induction rs generalizing d with
  | nil => exact hd
  | cons r rs ih => exact ih (hd.record r)

/-- The host's numbers are the guest's, after every line of a program, exactly when each setup line
that creates tasks is one they read alike and setup and records together fit the guest's table. -/
theorem numbering_agrees_iff (world : ℕ → CliView) (bytes : List UInt8) (bug : Bug)
    (hverbs : ∀ verb ∈ bug.verbs, verb ∈ cliVerbs)
    (hgrammar : SetupGrammar world bug.checks.length bug.setup) :
    Agrees world 0 0 (decode bytes bug) ↔
      SetupAgrees world bug.checks.length 0 bug.setup ∧
        setupTotal world bug.checks.length 0 bug.setup +
          createRecords bug ((chunks bytes).take maxRecords) ≤ kstepShmTasks := by
  have hstart := Decoder.start_numbered
  have hsetup (prog : Program) := agrees_setup_iff prog (Nat.zero_le kstepShmTasks) hstart hgrammar
  rw [decode, agrees_checks_iff, Nat.zero_add]
  refine (hsetup _).1.trans (and_congr_right fun hagrees => ?_)
  obtain ⟨hcount, hle⟩ := (hsetup []).2 hagrees
  have hnumbered := setup_numbered hstart bug.setup
  rw [agrees_records_iff hverbs (hcount ▸ hle) hnumbered, hcount]
  exact and_iff_left (agrees_ticks (records_numbered hnumbered _) 3)

def plainBug (setup verbs : List String) : Bug :=
  ⟨2, [], verbs.map String.toList, setup.map String.toList⟩

def oneCgroup (i : ℕ) : CliView := { plainView with cgroupExists := fun p => 0 < i && p == ['a'] }

theorem count_and_path_disagrees :
    SetupGrammar oneCgroup 0 (plainBug ["cgroup-create /a", "create 2 /a"] []).setup ∧
      ¬ Agrees oneCgroup 0 0 (decode [] (plainBug ["cgroup-create /a", "create 2 /a"] [])) := by
  have hfirst : createArgOf "cgroup-create /a".toList = none := rfl
  have hsecond : createArgOf "create 2 /a".toList = some (some "2 /a".toList) := rfl
  constructor
  · refine ⟨fun arg h => ?_, fun arg h => ?_, trivial⟩
    · cases hfirst.symm.trans h
    · cases hsecond.symm.trans h
      exact ⟨2, some "a".toList, rfl⟩
  · rintro ⟨-, -, hstep, -⟩
    exact absurd hstep (by decide)

theorem three_tasks_agree : Agrees (fun _ => plainView) 0 0
    (decode [5, 0, 0, 0, 3, 3, 0, 0] (plainBug ["create 3"] ["create"])) := by
  have hgrammar : SetupGrammar (fun _ => plainView) 0 (plainBug ["create 3"] ["create"]).setup := by
    refine ⟨fun arg h => ?_, trivial⟩
    cases (show createArgOf "create 3".toList = some (some "3".toList) from rfl).symm.trans h
    exact ⟨3, none, rfl⟩
  refine (numbering_agrees_iff _ _ _ (by decide) hgrammar).mpr ⟨⟨?_, trivial⟩, by decide⟩
  exact ⟨by decide, by decide, Or.inl rfl⟩

end KStep.Fuzz
