import KStep.FuzzCgroupSteps

/-!
# Programs whose cgroups the cli accepts

Every `cgroup-create` line of a program is accepted, once the earlier ones have succeeded, as long
as each record that makes one picks a parent and a number that fit.
-/

namespace KStep.Fuzz

open CString Trim Cli

variable {bug : Bug} {d : Decoder} {r : Record} {parent line : Line} {n : ℕ}
  {setup before : List Line}

theorem command_word (hverbs : ∀ verb ∈ bug.verbs, verb ∈ cliVerbs) (d : Decoder) (r : Record) :
    IsWord (bug.command d r).verb ∧ (bug.command d r).verb.length < lineMax := by
  have hgeneral : ∀ verb ∈ generalVerbs, verb.length < lineMax := by decide
  have hcli : ∀ verb ∈ cliVerbs, verb.length < lineMax := by decide
  rcases command_verb bug d r with h | h
  · rw [h]
    refine ⟨verbAt_word hverbs r, ?_⟩
    rcases List.mem_append.mp (verbAt_mem bug r) with hmem | hmem
    · exact hgeneral _ hmem
    · exact hcli _ (hverbs _ hmem)
  · rw [h]
    exact show IsWord "tick".toList ∧ "tick".toList.length < lineMax by decide

theorem asksCgroup_command (hverbs : ∀ verb ∈ bug.verbs, verb ∈ cliVerbs)
    (h : asksCgroup (bug.command d r).line = true) :
    ∃ parent n, bug.command d r = .cgroupCreate parent n := by
  obtain ⟨hword, hlen⟩ := command_word hverbs d r
  rw [Command.line, asksCgroup_say hword hlen, beq_iff_eq] at h
  have harm : armOf "cgroup-create".toList = .cgroupCreate := by decide
  have hother : (bug.command d r).arm = .cgroupCreate := by
    rcases command_verb bug d r with hv | htick
    · rcases command_arm bug d r with ha | htick
      · rw [ha, ← hv, h, harm]
      · rw [htick] at h
        exact absurd h (show "tick".toList ≠ "cgroup-create".toList by decide)
    · rw [htick] at h
      exact absurd h (show "tick".toList ≠ "cgroup-create".toList by decide)
  cases hc : bug.command d r with
  | cgroupCreate parent n => exact ⟨parent, n, rfl⟩
  | _ => rw [hc] at hother; cases hother

theorem command_cgroupCreate (h : bug.command d r = .cgroupCreate parent n) :
    n = d.cgroups.length + 1 ∧ (parent = [] ∨ parent ∈ d.cgroups) := by
  have harm : armOf (bug.verbAt r) = .cgroupCreate := by
    rcases command_arm bug d r with ha | htick
    · rw [← ha, h]
      rfl
    · cases h.symm.trans htick
  unfold Bug.command at h
  split_ifs at h
  rw [harm] at h
  cases h
  refine ⟨rfl, ?_⟩
  split_ifs with hroot
  · exact Or.inl rfl
  · exact Or.inr (getD_mod_mem (fun hnone => hroot (Or.inl hnone)) _ _)

/-- A record's line is accepted if it fits, and host and guest stay together. -/
theorem Follows.record (h : Follows setup before d)
    (hverbs : ∀ verb ∈ bug.verbs, verb ∈ cliVerbs)
    (hfits : ∀ parent n, bug.command d r = .cgroupCreate parent n → PathFits setup parent n) :
    (asksCgroup (bug.record d r).2 = true → Accepted (madeCgroups before) (bug.record d r).2) ∧
      Follows setup (before ++ [(bug.record d r).2]) (bug.record d r).1 := by
  rw [record_eq]
  by_cases hasks : asksCgroup (bug.command d r).line = true
  · obtain ⟨parent, n, hc⟩ := asksCgroup_command hverbs hasks
    obtain ⟨hn, hparent⟩ := command_cgroupCreate hc
    have haccept := h.accepted (hfits parent n hc) hparent (by omega)
    rw [hc]
    exact ⟨fun _ => haccept, h.create hn (hfits parent n hc) haccept⟩
  · refine ⟨fun hyes => absurd hyes hasks, h.other (Bool.eq_false_iff.mpr hasks) ?_⟩
    cases hc : bug.command d r with
    | cgroupCreate parent n =>
        rw [hc] at hasks
        exact absurd (asksCgroup_create _) hasks
    | _ => rfl

/-- The lines of records that fit, and the ticks after them. -/
theorem records_accepted {rs : List Record} {k : ℕ} {pre post : List Line}
    (hverbs : ∀ verb ∈ bug.verbs, verb ∈ cliVerbs) (h : Follows bug.setup before d)
    (hfits : CreatesFit bug d rs)
    (hsplit : (recordProgram bug d rs).map Prod.fst ++ List.replicate k Command.tick.line =
      pre ++ line :: post) (hasks : asksCgroup line = true) :
    Accepted (madeCgroups (before ++ pre)) line := by
  induction rs generalizing before d pre with
  | nil =>
      have hline : line ∈ List.replicate k Command.tick.line := by
        rw [recordProgram, List.map_nil, List.nil_append] at hsplit
        rw [hsplit]
        simp
      rw [(List.mem_replicate.mp hline).2] at hasks
      exact absurd hasks (by decide)
  | cons r rs ih =>
      obtain ⟨haccept, hnext⟩ := h.record hverbs hfits.1
      rw [recordProgram, List.map_cons, List.cons_append] at hsplit
      rcases List.cons_eq_append_iff.mp hsplit with ⟨rfl, hline⟩ | ⟨pre', rfl, hrest⟩
      · cases hline
        rw [List.append_nil]
        exact haccept hasks
      · have hlater := ih hnext hfits.2 hrest
        rwa [List.append_assoc, List.singleton_append] at hlater

theorem asksCgroup_check (check : Line) : asksCgroup (say "check".toList [check]) = false := by
  rw [asksCgroup_say (by decide) (by decide)]
  decide

theorem madeCgroups_checks (checks : List Line) :
    madeCgroups (checks.map fun c => say "check".toList [c]) = [] := by
  have hnone : (checks.map fun c => say "check".toList [c]).filter asksCgroup = [] := by
    refine List.filter_eq_nil_iff.mpr fun line hline => ?_
    obtain ⟨c, -, rfl⟩ := List.mem_map.mp hline
    rw [asksCgroup_check]
    exact Bool.false_ne_true
  rw [madeCgroups, hnone]
  rfl

theorem Follows.setup_lines {checks pre rest : List Line} (hsetup : CreatesAccepted setup)
    (hsplit : setup = pre ++ rest) (hchecks : madeCgroups checks = [])
    (h : Follows setup (checks ++ pre) d) :
    Follows setup (checks ++ setup) (rest.foldl Decoder.setup d) := by
  induction rest generalizing pre d with
  | nil =>
      rw [List.append_nil] at hsplit
      rw [hsplit] at h ⊢
      exact h
  | cons line rest ih =>
      have hmade (l : List Line) : madeCgroups (checks ++ l) = madeCgroups l := by
        rw [madeCgroups_append, hchecks, List.nil_append]
      have hsplit' : setup = (pre ++ [line]) ++ rest := by
        rw [hsplit, List.append_assoc, List.singleton_append]
      refine ih hsplit' ?_
      rw [← List.append_assoc]
      refine h.setupLine (fun p hp => ?_) fun hasks => ?_
      · rw [List.append_assoc, hmade] at hp
        rw [hsplit', madeCgroups_append]
        exact List.mem_append_left _ hp
      · rw [hmade]
        exact hsetup pre line rest hsplit hasks

theorem append_eq_cases {α : Type} {xs ys before post : List α} {x : α}
    (h : xs ++ ys = before ++ x :: post) :
    (∃ pre, before = xs ++ pre ∧ ys = pre ++ x :: post) ∨ ∃ post', xs = before ++ x :: post' := by
  rcases List.append_eq_append_iff.mp h with ⟨pre, hbefore, hys⟩ | ⟨bs, hxs, hpost⟩
  · exact Or.inl ⟨pre, hbefore, hys⟩
  · rcases bs with _ | ⟨b, bs⟩
    · exact Or.inl ⟨[], by rw [hxs, List.append_nil, List.append_nil], by simpa using hpost.symm⟩
    · cases hpost
      exact Or.inr ⟨bs, hxs⟩

/-- Where every new cgroup has a parent and a number that fit, each `cgroup-create` line of the
program is one the cli accepts once the earlier ones have succeeded. -/
theorem creates_accepted (bytes : List UInt8) (bug : Bug)
    (hverbs : ∀ verb ∈ bug.verbs, verb ∈ cliVerbs) (hsetup : CreatesAccepted bug.setup)
    (hfits : CreatesFit bug (bug.setup.foldl Decoder.setup Decoder.start)
      ((chunks bytes).take maxRecords)) : CreatesAccepted (lines bytes bug) := by
  intro before line post hsplit hasks
  have hchecks := madeCgroups_checks bug.checks
  have hstart : Follows bug.setup ((bug.checks.map fun c => say "check".toList [c]) ++ [])
      Decoder.start := by
    constructor
    · intro path hpath
      cases hpath
    · intro p hp
      rw [List.append_nil, hchecks] at hp
      cases hp
  rw [lines_eq] at hsplit
  rcases append_eq_cases hsplit with ⟨pre, rfl, hrest⟩ | ⟨post', hhead⟩
  · exact records_accepted hverbs (hstart.setup_lines hsetup rfl hchecks) hfits hrest hasks
  · rcases append_eq_cases hhead with ⟨pre, rfl, hline⟩ | ⟨post'', hline⟩
    · rw [madeCgroups_append, hchecks, List.nil_append]
      exact hsetup pre line post' hline hasks
    · have hmem : line ∈ bug.checks.map fun c => say "check".toList [c] := by
        rw [hline]
        simp
      obtain ⟨c, -, rfl⟩ := List.mem_map.mp hmem
      rw [asksCgroup_check] at hasks
      cases hasks

theorem createsAccepted_nil : CreatesAccepted [] := by
  intro before line post hsplit
  simp at hsplit

/-- A cgroup and one below it. -/
theorem creates_accepted_nested :
    CreatesAccepted (lines [5, 0, 0, 0, 5, 0, 1, 0] (plainBug [] ["cgroup-create"])) := by
  refine creates_accepted _ _ (by decide) createsAccepted_nil ⟨?_, ?_, trivial⟩
  · intro parent n h
    obtain ⟨rfl, rfl⟩ : parent = [] ∧ n = 1 := by
      have hc : (plainBug [] ["cgroup-create"]).command Decoder.start ⟨5, 0, 0, 0⟩ =
        .cgroupCreate [] 1 := by decide
      cases hc.symm.trans h
      exact ⟨rfl, rfl⟩
    exact ⟨token_of_plain (by simp), by decide, by decide, by simp [madeCgroups, plainBug]⟩
  · intro parent n h
    obtain ⟨rfl, rfl⟩ : parent = "/g1".toList ∧ n = 2 := by
      have hc : (plainBug [] ["cgroup-create"]).command
        ((plainBug [] ["cgroup-create"]).record Decoder.start ⟨5, 0, 0, 0⟩).1 ⟨5, 0, 1, 0⟩ =
          .cgroupCreate "/g1".toList 2 := by decide
      cases hc.symm.trans h
      exact ⟨rfl, rfl⟩
    refine ⟨token_of_plain fun c hc => ?_, by decide, by decide, by simp [madeCgroups, plainBug]⟩
    have hchars : (("/g1".toList.dropWhile isspace).all fun c => !isspace c) = true := by decide
    simpa using List.all_eq_true.mp hchars c hc

def nestedBytes : List UInt8 :=
  [5, 0, 0, 0, 5, 0, 1, 0, 5, 0, 3, 0, 5, 0, 5, 0, 5, 0, 7, 0, 5, 0, 9, 0, 5, 0, 11, 0, 5, 0, 13, 0,
    5, 0, 15, 0, 5, 0, 17, 0, 5, 0, 19, 0, 5, 0, 21, 0, 5, 0, 23, 0, 5, 0, 25, 0, 5, 0, 27, 0]

def nestedPath : Line := "/g1/g2/g3/g4/g5/g6/g7/g8/g9/g10/g11/g12/g13/g14/g15".toList

theorem path_refused {made : List (List (List Char))} {path : Line}
    (htoken : (path.all fun c => !isspace c) = true) (hne : path ≠ [])
    (hbad : 48 ≤ path.length ∨ parts path ∈ made) :
    ¬ Accepted made (say "cgroup-create".toList [path]) := by
  have hu : Token path := by
    refine token_of_plain fun c hc => ?_
    simpa using List.all_eq_true.mp htoken c hc
  intro h
  obtain ⟨-, -, -, hlen, hfresh, -⟩ := (accepted_say_iff (s := []) (by simp) hne hu).mp h
  rcases hbad with hlong | hmade
  · omega
  · exact hfresh (List.mem_cons_of_mem _ hmade)

/-- With no setup at all the fifteenth nested path is too long for the cli, and after a setup that
has made `/g2` the first new cgroup under the root has the same name. -/
theorem creates_refused :
    ¬ CreatesAccepted (lines nestedBytes (plainBug [] ["cgroup-create"])) ∧
      CreatesAccepted (plainBug ["cgroup-create /g2"] ["cgroup-create"]).setup ∧
      ¬ CreatesAccepted
        (lines [5, 0, 0, 0] (plainBug ["cgroup-create /g2"] ["cgroup-create"])) := by
  refine ⟨fun h => ?_, ?_, fun h => ?_⟩
  · have hsplit : lines nestedBytes (plainBug [] ["cgroup-create"]) =
        (lines nestedBytes (plainBug [] ["cgroup-create"])).take 14 ++
          say "cgroup-create".toList [nestedPath] :: List.replicate 3 "tick".toList := by
      decide
    exact path_refused (by decide) (by decide) (Or.inl (by decide))
      (h _ _ _ hsplit (asksCgroup_create nestedPath))
  · intro before line post hsplit hasks
    rcases before with _ | ⟨l, before⟩
    · cases hsplit
      have hline : "cgroup-create /g2".toList =
          say "cgroup-create".toList [[] ++ "/g2".toList] := by
        decide
      have htoken : Token "/g2".toList := by
        refine token_of_plain fun c hc => ?_
        have hchars : ("/g2".toList.all fun c => !isspace c) = true := by decide
        simpa using List.all_eq_true.mp hchars c hc
      rw [hline, accepted_say_iff (by simp) (by decide) htoken]
      decide
    · simp [plainBug] at hsplit
  · have hsplit : lines [5, 0, 0, 0] (plainBug ["cgroup-create /g2"] ["cgroup-create"]) =
        ["cgroup-create /g2".toList] ++
          say "cgroup-create".toList ["/g2".toList] :: List.replicate 3 "tick".toList := by
      decide
    exact path_refused (by decide) (by decide) (Or.inr (by decide))
      (h _ _ _ hsplit (asksCgroup_create "/g2".toList))

end KStep.Fuzz
