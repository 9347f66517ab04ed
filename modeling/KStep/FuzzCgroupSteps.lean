import KStep.FuzzCgroups

/-!
# The guest follows the host's cgroups

Along a program the host's list of cgroups follows what the guest has made, and a new path ends in a
number no earlier record has used. One line keeps this, be it a setup line that is accepted or the
`cgroup-create` of a parent and a number that fit.
-/

namespace KStep.Fuzz

open CString Trim Cli

/-- What the guest has made of the host's cgroups: those of one token exist, and a cgroup that is
not the setup's ends in a number already used. -/
structure Follows (setup before : List Line) (d : Decoder) : Prop where
  exist : ∀ path ∈ d.cgroups, Token (path.dropWhile isspace) →
    (path.dropWhile isspace).head? = some '/' ∧
      strstr (path.dropWhile isspace) "..".toList = false ∧
        parts (path.dropWhile isspace) ∈ madeCgroups before
  numbered : ∀ p ∈ madeCgroups before, p ∈ madeCgroups setup ∨
    ∃ m ≤ d.cgroups.length, p.getLast? = some ('g' :: dec m)

variable {bug : Bug} {d : Decoder} {r : Record} {c : Command} {parent line : Line} {n : ℕ}
  {setup before : List Line} {s t : List Char}

theorem asksCgroup_create (path : Line) :
    asksCgroup (say "cgroup-create".toList [path]) = true := by
  rw [asksCgroup_say (by decide) (by decide)]
  decide

theorem madeCgroups_append (before after : List Line) :
    madeCgroups (before ++ after) = madeCgroups before ++ madeCgroups after := by
  rw [madeCgroups, List.filter_append, List.map_append]
  rfl

theorem madeCgroups_other (h : asksCgroup line = false) : madeCgroups (before ++ [line]) =
    madeCgroups before := by
  rw [madeCgroups_append]
  simp [madeCgroups, h]

theorem madeCgroups_create (h : asksCgroup line = true) : madeCgroups (before ++ [line]) =
    madeCgroups before ++ [parts (createName line)] := by
  rw [madeCgroups_append]
  congr 1
  simp [madeCgroups, h]

theorem strstr_iff : strstr s t = true ↔ t <:+: s := by
  rw [strstr, List.any_eq_true, List.infix_iff_prefix_suffix]
  simp only [List.mem_tails, List.isPrefixOf_iff_prefix, and_comm]

theorem strstr_append (hs : strstr s "..".toList = false) (ht : ∀ c ∈ t, c ≠ '.') :
    strstr (s ++ t) "..".toList = false := by
  rw [Bool.eq_false_iff, ne_eq, strstr_iff] at hs ⊢
  intro h
  rcases List.infix_append_iff.mp h with h | h | ⟨l₁, l₂, hdots, hl₁, hl₂⟩
  · exact hs h
  · exact ht '.' (h.subset (by decide)) rfl
  · rcases l₂ with _ | ⟨c, l₂⟩
    · rw [List.append_nil] at hdots
      exact hs (hdots ▸ hl₁.isInfix)
    · have hc : c ∈ "..".toList := by
        rw [hdots]
        simp
      have hdot : c = '.' := by simpa using hc
      exact ht c (hl₂.subset (by simp)) hdot

/-- The text a new path adds to its parent. -/
theorem suffix_chars {c : Char} (h : c ∈ "/g".toList ++ dec n) : isspace c = false ∧ c ≠ '.' := by
  rcases List.mem_append.mp h with h | h
  · have hchars : ("/g".toList.all fun c => !isspace c && !(c == '.')) = true := by decide
    simpa using List.all_eq_true.mp hchars c h
  · have hdigit := dec_digits h
    have hval : 48 ≤ c.toNat ∧ c.toNat ≤ 57 := by
      simpa [Char.isDigit, UInt32.le_iff_toNat_le] using hdigit
    refine ⟨?_, ?_⟩
    · simp only [isspace, Bool.or_eq_false_iff, Bool.and_eq_false_iff, beq_eq_false_iff_ne,
        decide_eq_false_iff_not]
      refine ⟨⟨?_, by omega⟩, by omega⟩
      rintro rfl
      exact absurd hval (by decide)
    · rintro rfl
      exact absurd hval (by decide)

/-- A new path without the blanks before it. -/
theorem dropWhile_cgroupPath (parent : Line) (n : ℕ) :
    (cgroupPath parent n).dropWhile isspace = cgroupPath (parent.dropWhile isspace) n := by
  have hslash : isspace '/' = false := by decide
  have hhead : ("/g".toList ++ dec n).dropWhile isspace = "/g".toList ++ dec n :=
    List.dropWhile_cons_of_neg (a := '/') (l := 'g' :: dec n) (Bool.eq_false_iff.mp hslash)
  simp only [cgroupPath, List.append_assoc]
  rw [List.dropWhile_append]
  split_ifs with h
  · rw [List.isEmpty_iff.mp h, List.nil_append, hhead]
  · rfl

theorem takeWhile_append_cgroupPath (parent : Line) (n : ℕ) :
    parent.takeWhile isspace ++ cgroupPath (parent.dropWhile isspace) n = cgroupPath parent n := by
  simp only [cgroupPath, ← List.append_assoc, List.takeWhile_append_dropWhile]

theorem cgroupPath_token (h : Token (parent.dropWhile isspace)) :
    Token (cgroupPath (parent.dropWhile isspace) n) := by
  have hsuffix : Token ("/g".toList ++ dec n) := token_of_plain fun c hc => (suffix_chars hc).1
  have hdrop := dropWhile_cgroupPath (parent.dropWhile isspace) n
  rw [List.dropWhile_idempotent] at hdrop
  refine ⟨fun c hc => ?_, ?_⟩
  · rw [cgroupPath, List.append_assoc] at hc
    exact (List.mem_append.mp hc).elim (h.blank c) (hsuffix.blank c)
  · rw [strim, trimBy, hdrop, cgroupPath, List.append_assoc]
    exact rdropWhile_kept (by simp) hsuffix.trim

theorem cgroupPath_ne_nil : cgroupPath parent n ≠ [] := by
  simp [cgroupPath]

/-- The line of a cgroup whose parent is known and whose path fits is accepted. -/
theorem Follows.accepted (h : Follows setup before d) (hfits : PathFits setup parent n)
    (hparent : parent = [] ∨ parent ∈ d.cgroups) (hn : d.cgroups.length < n) :
    Accepted (madeCgroups before) (say "cgroup-create".toList [cgroupPath parent n]) := by
  have hlead : ∀ c ∈ parent.takeWhile isspace, isspace c = true := fun c hc =>
    List.mem_takeWhile_imp hc
  have hroot : parent.dropWhile isspace = [] ∨
      (parent.dropWhile isspace).head? = some '/' ∧
        strstr (parent.dropWhile isspace) "..".toList = false ∧
          parts (parent.dropWhile isspace) ∈ madeCgroups before := by
    rcases hparent with rfl | hmem
    · exact Or.inl rfl
    · exact Or.inr (h.exist parent hmem hfits.token)
  rw [← takeWhile_append_cgroupPath, accepted_say_iff hlead cgroupPath_ne_nil
    (cgroupPath_token hfits.token), parts_cgroupPath, List.dropLast_concat]
  refine ⟨?_, ?_, ?_, ?_, ?_, ?_⟩
  · have hline := hfits.line
    rw [takeWhile_append_cgroupPath]
    simp only [say, cgroupPath, List.flatMap_cons, List.flatMap_nil, List.append_nil,
      List.length_append, List.length_cons]
    change 13 + (parent.length + 2 + (dec n).length + 1) < lineMax
    omega
  · rcases hroot with hnil | ⟨hhead, -, -⟩
    · rw [hnil]
      rfl
    · obtain ⟨t, ht⟩ := List.head?_eq_some_iff.mp hhead
      rw [ht]
      rfl
  · rw [cgroupPath, List.append_assoc]
    refine strstr_append ?_ fun c hc => (suffix_chars hc).2
    rcases hroot with hnil | ⟨-, hdots, -⟩
    · rw [hnil]
      rfl
    · exact hdots
  · have hpath := hfits.path
    simp only [cgroupPath, List.length_append]
    change _ + 2 + _ < 48
    omega
  · intro hmem
    rcases List.mem_cons.mp hmem with hnil | hmem
    · simp at hnil
    · rcases h.numbered _ hmem with hsetup | ⟨m, hm, hlast⟩
      · exact hfits.fresh (by rw [parts_cgroupPath]; exact hsetup)
      · rw [List.getLast?_concat, Option.some.injEq, List.cons.injEq] at hlast
        have := dec_injective hlast.2
        omega
  · rcases hroot with hnil | ⟨-, -, hmade⟩
    · rw [hnil]
      exact List.mem_cons_self
    · exact List.mem_cons_of_mem _ hmade

/-- What an accepted line of one token makes. -/
theorem Accepted.made {made : List (List (List Char))} {path : Line}
    (h : Accepted made (say "cgroup-create".toList [path])) (hne : path.dropWhile isspace ≠ [])
    (htoken : Token (path.dropWhile isspace)) :
    (path.dropWhile isspace).head? = some '/' ∧
      strstr (path.dropWhile isspace) "..".toList = false ∧
        parts (createName (say "cgroup-create".toList [path])) =
          parts (path.dropWhile isspace) := by
  have hlead : ∀ c ∈ path.takeWhile isspace, isspace c = true := fun c hc =>
    List.mem_takeWhile_imp hc
  have hsplit : path.takeWhile isspace ++ path.dropWhile isspace = path :=
    List.takeWhile_append_dropWhile
  have hfits := h.fits
  have hname := createName_say hlead hne htoken (by rw [hsplit]; exact hfits)
  rw [← hsplit] at h
  obtain ⟨-, hhead, hdots, -⟩ := (accepted_say_iff hlead hne htoken).mp h
  rw [hsplit] at hname
  refine ⟨hhead, hdots, ?_⟩
  obtain ⟨t, ht⟩ := List.head?_eq_some_iff.mp hhead
  rw [hname, ht, parts_slash, List.tail_cons]

/-- A `cgroup-create` line with no argument is refused. -/
theorem not_accepted_blank {made : List (List (List Char))} (hs : ∀ c ∈ s, isspace c = true) :
    ¬ Accepted made ("cgroup-create".toList ++ s) := by
  intro h
  have hword : IsWord "cgroup-create".toList := by decide
  have htrim : strim ("cgroup-create".toList ++ s) = "cgroup-create".toList := by
    rw [hword.strim, List.rdropWhile_eq_nil_iff.mpr hs, List.append_nil]
  have hparses := runLine_eq_execute h.parses
  rw [htrim] at hparses
  have hname := execute_cgroupCreate hparses
  have harg : lineArg (strsep isBlank "cgroup-create".toList).2 = none := by decide
  obtain ⟨c, hc⟩ := List.exists_mem_of_ne_nil _ (hname.fresh rfl).1
  obtain ⟨t, ht, -⟩ := hname.mem c hc
  rw [harg] at ht
  cases ht

theorem Follows.create (h : Follows setup before d) (hn : n = d.cgroups.length + 1)
    (hfits : PathFits setup parent n)
    (haccept : Accepted (madeCgroups before) (say "cgroup-create".toList [cgroupPath parent n])) :
    Follows setup (before ++ [say "cgroup-create".toList [cgroupPath parent n]])
      { d with cgroups := d.cgroups ++ [cgroupPath parent n] } := by
  obtain ⟨hhead, hdots, hparts⟩ := haccept.made
    (by rw [dropWhile_cgroupPath]; exact cgroupPath_ne_nil)
    (by rw [dropWhile_cgroupPath]; exact cgroupPath_token hfits.token)
  have hmade : madeCgroups (before ++ [say "cgroup-create".toList [cgroupPath parent n]]) = _ :=
    madeCgroups_create (asksCgroup_create (cgroupPath parent n))
  rw [hparts] at hmade
  constructor
  · intro path hpath htoken
    rw [hmade]
    rcases List.mem_append.mp hpath with hpath | hpath
    · obtain ⟨h1, h2, h3⟩ := h.exist path hpath htoken
      exact ⟨h1, h2, List.mem_append_left _ h3⟩
    · rw [List.mem_singleton.mp hpath]
      exact ⟨hhead, hdots, by simp⟩
  · intro p hp
    rw [hmade] at hp
    simp only [List.length_append, List.length_singleton]
    rcases List.mem_append.mp hp with hp | hp
    · rcases h.numbered p hp with hsetup | ⟨m, hm, hlast⟩
      · exact Or.inl hsetup
      · exact Or.inr ⟨m, by omega, hlast⟩
    · refine Or.inr ⟨n, hn.le, ?_⟩
      rw [List.mem_singleton.mp hp, dropWhile_cgroupPath, parts_cgroupPath, List.getLast?_concat]

theorem Follows.other {d' : Decoder} (h : Follows setup before d) (hline : asksCgroup line = false)
    (hd : d'.cgroups = d.cgroups) : Follows setup (before ++ [line]) d' := by
  constructor
  · intro path hpath htoken
    rw [madeCgroups_other hline]
    exact h.exist path (hd ▸ hpath) htoken
  · intro p hp
    rw [madeCgroups_other hline] at hp
    rw [hd]
    exact h.numbered p hp

theorem splitOnce_cases {verb rest : Line} (h : splitOnce line = (verb, rest)) :
    line = verb ++ [] ∨ line = verb ++ ' ' :: rest := by
  rcases hsep : strsep (· == ' ') line with ⟨token, after⟩
  have hcut : splitOnce line = (token, after.getD []) := by
    rw [splitOnce, hsep]
  cases hcut.symm.trans h
  rcases strsep_cases hsep with ⟨-, hs⟩ | ⟨b, t, rfl, hb, hs⟩
  · exact Or.inl (by rw [hs, List.append_nil])
  · exact Or.inr (by rw [hs, beq_iff_eq.mp hb]; rfl)

/-- A setup line that is accepted. -/
theorem Follows.setupLine (h : Follows setup before d)
    (hmem : ∀ p ∈ madeCgroups (before ++ [line]), p ∈ madeCgroups setup)
    (haccept : asksCgroup line = true → Accepted (madeCgroups before) line) :
    Follows setup (before ++ [line]) (d.setup line) := by
  refine ⟨fun path hpath htoken => ?_, fun p hp => Or.inl (hmem p hp)⟩
  have hkeep : path ∈ d.cgroups → (path.dropWhile isspace).head? = some '/' ∧
      strstr (path.dropWhile isspace) "..".toList = false ∧
        parts (path.dropWhile isspace) ∈ madeCgroups (before ++ [line]) := by
    intro hold
    obtain ⟨h1, h2, h3⟩ := h.exist path hold htoken
    rw [madeCgroups_append]
    exact ⟨h1, h2, List.mem_append_left _ h3⟩
  unfold Decoder.setup at hpath
  simp only at hpath
  split_ifs at hpath with hcreate hverb
  · exact hkeep hpath
  · rcases List.mem_append.mp hpath with hpath | hpath
    · exact hkeep hpath
    · have hsplit : splitOnce line = ("cgroup-create".toList, path) := by
        rw [List.mem_singleton.mp hpath, ← hverb]
      rcases splitOnce_cases hsplit with hline | hline
      · have hasks : asksCgroup line = true := by
          rw [hline]
          decide
        exact absurd (hline ▸ haccept hasks) (not_accepted_blank (by simp))
      · have hsay : "cgroup-create".toList ++ ' ' :: path = say "cgroup-create".toList [path] := by
          simp only [say, List.flatMap_cons, List.flatMap_nil, List.append_nil]
        have hasks : asksCgroup line = true := by
          rw [hline, hsay]
          exact asksCgroup_create path
        have haccept := haccept hasks
        rw [hline] at haccept
        have hne : path.dropWhile isspace ≠ [] := by
          intro hnil
          refine not_accepted_blank (fun c hc => ?_) haccept
          rcases List.mem_cons.mp hc with rfl | hc
          · decide
          · exact List.dropWhile_eq_nil_iff.mp hnil c hc
        rw [hsay] at haccept
        obtain ⟨h1, h2, h3⟩ := haccept.made hne htoken
        rw [madeCgroups_create hasks, hline, hsay, h3]
        exact ⟨h1, h2, by simp⟩
  · exact hkeep hpath

end KStep.Fuzz
