import KStep.FuzzLocality

/-!
# The cgroups the fuzzer names

A `cgroup-create` record grows a path under the root or a cgroup it knows, with a running number.
The cli takes paths of up to 47 bytes, one token of a line of up to 127, below a cgroup that exists
and with a name that is new. The host knows none of this: the paths nest until they are too long,
and a name may be one the setup has used.
-/

namespace KStep.Fuzz

open CString Trim Cli

def lineMax : ℕ := 128

/-- The components of a path; an empty one and `.` lead nowhere. -/
def parts (path : List Char) : List (List Char) :=
  (path.splitOn '/').filter fun part => part ≠ [] ∧ part ≠ ['.']

/-- The line as `run` has it: cut to the buffer and trimmed. -/
def readText (line : Line) : List Char := strim (strscpy lineMax line)

def asksCgroup (line : Line) : Bool :=
  (strsep isBlank (readText line)).1 == "cgroup-create".toList

def createName (line : Line) : List Char :=
  ((takeArg (lineArg (strsep isBlank (readText line)).2)).1.getD []).tail

/-- The cgroups that the lines make when they all succeed, by their components. -/
def madeCgroups (lines : List Line) : List (List (List Char)) :=
  (lines.filter asksCgroup).map fun line => parts (createName line)

def cgroupView (made : List (List (List Char))) : CliView :=
  { plainView with cgroupExists := fun name => ([] :: made).any fun p => p = parts name }

/-- A line the cli takes when these cgroups exist: it fits the buffer, `parse_cgroup` accepts its
path, and the parent of the path is there. -/
structure Accepted (made : List (List (List Char))) (line : Line) : Prop where
  fits : line.length < lineMax
  parses : runLine (cgroupView made) line = some (.ok (.cgroupCreate (createName line)))
  parent : (parts (createName line)).dropLast ∈ [] :: made

/-- Every `cgroup-create` line is accepted, given that the earlier ones have succeeded. -/
def CreatesAccepted (lines : List Line) : Prop :=
  ∀ before line post, lines = before ++ line :: post → asksCgroup line = true →
    Accepted (madeCgroups before) line

/-- An argument the cli takes whole: it separates at blanks, and trims white space at the ends. -/
structure Token (u : List Char) : Prop where
  blank : ∀ c ∈ u, isBlank c = false
  trim : strim u = u

/-- What the cli needs of a new cgroup: a parent that is one token, a path and a line that fit,
and a path that the setup has not made. -/
structure PathFits (setup : List Line) (parent : Line) (n : ℕ) : Prop where
  token : Token (parent.dropWhile isspace)
  path : (parent.dropWhile isspace).length + (dec n).length + 2 < 48
  line : parent.length + (dec n).length + 16 < lineMax
  fresh : parts (cgroupPath (parent.dropWhile isspace) n) ∉ madeCgroups setup

def CreatesFit (bug : Bug) : Decoder → List Record → Prop
  | _, [] => True
  | d, r :: rs => (∀ parent n, bug.command d r = .cgroupCreate parent n →
      PathFits bug.setup parent n) ∧ CreatesFit bug (bug.record d r).1 rs

variable {v : CliView} {s t u : List Char} {n : ℕ} {line verb : Line}
  {made : List (List (List Char))} {lines before : List Line}

theorem parts_append (s t : List Char) : parts (s ++ '/' :: t) = parts s ++ parts t := by
  rw [parts, List.splitOn_append_cons_self, List.filter_append]
  rfl

theorem parts_slash (s : List Char) : parts ('/' :: s) = parts s := parts_append [] s

/-- The last component of a new path is its running number. -/
theorem parts_cgroupPath (parent : Line) (n : ℕ) :
    parts (cgroupPath parent n) = parts parent ++ ['g' :: dec n] := by
  have hslash : '/' ∉ 'g' :: dec n := by
    intro hmem
    rcases List.mem_cons.mp hmem with h | h
    · exact absurd h (by decide)
    · have hne : ('/' == '/') = false := dec_ne (by decide) h
      cases hne
  have hname : parts ('g' :: dec n) = ['g' :: dec n] := by
    rw [parts, List.splitOn_eq_singleton hslash]
    simp
  rw [cgroupPath, List.append_assoc]
  exact (parts_append parent ('g' :: dec n)).trans (by rw [hname])

theorem rdropWhile_kept (hne : u ≠ []) (hu : strim u = u) :
    (s ++ u).rdropWhile isspace = s ++ u := by
  have hlast (w : List Char) (hw : w ≠ []) (heq : w = strim u) : isspace (w.getLast hw) = false := by
    subst heq
    exact trimBy_getLast hw
  rw [List.rdropWhile_eq_self_iff]
  intro hl
  rw [List.getLast_append_of_ne_nil hl hne, hlast u hne hu.symm]
  exact Bool.false_ne_true

theorem isBlank_false {c : Char} (h : isspace c = false) : isBlank c = false := by
  by_contra hblank
  rw [Bool.not_eq_false] at hblank
  exact absurd (h.symm.trans (isspace_of_isBlank hblank)) (by simp)

/-- What follows a verb in a line cut to the buffer: nothing, or a blank first. -/
theorem tail_take (args : List (List Char)) (k : ℕ) :
    (((args.flatMap fun arg => ' ' :: arg).take k).rdropWhile isspace = []) ∨
      ∃ d t, ((args.flatMap fun arg => ' ' :: arg).take k).rdropWhile isspace = d :: t ∧
        isBlank d = true := by
  rcases h : ((args.flatMap fun arg => ' ' :: arg).take k).rdropWhile isspace with _ | ⟨d, t⟩
  · exact Or.inl rfl
  · refine Or.inr ⟨d, t, rfl, ?_⟩
    have hpre : d :: t <+: args.flatMap fun arg => ' ' :: arg := by
      rw [← h]
      exact (List.rdropWhile_prefix isspace _).trans (List.take_prefix _ _)
    rcases say_tail args with hnil | ⟨w, hw⟩
    · rw [hnil] at hpre
      exact absurd hpre (by simp)
    · rw [hw] at hpre
      rw [(List.cons_prefix_cons.mp hpre).1]
      rfl

/-- The verb of a line is read as it is written. -/
theorem readText_verb (hword : IsWord verb) (hlen : verb.length < lineMax)
    (args : List (List Char)) : (strsep isBlank (readText (say verb args))).1 = verb := by
  have hcut : strscpy lineMax (say verb args) =
      verb ++ (args.flatMap fun arg => ' ' :: arg).take (lineMax - 1 - verb.length) := by
    rw [strscpy, say, List.take_append, List.take_of_length_le (by omega)]
  rw [readText, hcut, hword.strim, hword.strsep (tail_take args _)]

theorem asksCgroup_say (hword : IsWord verb) (hlen : verb.length < lineMax)
    (args : List (List Char)) : asksCgroup (say verb args) = (verb == "cgroup-create".toList) := by
  rw [asksCgroup, readText_verb hword hlen]

theorem token_of_plain (hu : ∀ c ∈ u, isspace c = false) : Token u := by
  refine ⟨fun c hc => isBlank_false (hu c hc), ?_⟩
  rcases List.eq_nil_or_concat' u with rfl | ⟨w, c, rfl⟩
  · rfl
  · have h := trimBy_append_of_neg (p := isspace) (z := []) (by simp) hu
    rwa [List.rdropWhile_nil, List.append_nil] at h

theorem strim_create (hne : u ≠ []) (hu : Token u) :
    strim (say "cgroup-create".toList [s ++ u]) = say "cgroup-create".toList [s ++ u] := by
  have hword : IsWord "cgroup-create".toList := by decide
  have hsay : say "cgroup-create".toList [s ++ u] = "cgroup-create".toList ++ (' ' :: s ++ u) := by
    simp only [say, List.flatMap_cons, List.flatMap_nil, List.append_nil, List.cons_append]
  rw [hsay, hword.strim, rdropWhile_kept hne hu.trim]

theorem strsep_create (t : List Char) :
    strsep isBlank (say "cgroup-create".toList [t]) = ("cgroup-create".toList, some t) := by
  have hword : IsWord "cgroup-create".toList := by decide
  have hsay : say "cgroup-create".toList [t] = "cgroup-create".toList ++ ' ' :: t := by
    simp only [say, List.flatMap_cons, List.flatMap_nil, List.append_nil]
  rw [hsay, hword.strsep (Or.inr ⟨' ', t, rfl, rfl⟩)]
  rfl

theorem lineArg_token (hs : ∀ c ∈ s, isspace c = true) (hne : u ≠ []) (hu : Token u) :
    lineArg (some (s ++ u)) = some u := by
  have htrim : strim (s ++ u) = u := (trimBy_pos_append hs).trans hu.trim
  obtain ⟨c, z, rfl⟩ := List.exists_cons_of_ne_nil hne
  simp only [lineArg, Option.map_some, htrim]

theorem takeArg_token (hu : Token u) : takeArg (some u) = (some u, none) := by
  rw [takeArg, strsep_token hu.blank]
  rfl

theorem runLine_create (hs : ∀ c ∈ s, isspace c = true) (hne : u ≠ [])
    (hu : Token u) :
    runLine v (say "cgroup-create".toList [s ++ u]) = some (cmdCgroupCreate v (some u)) := by
  have hcreate : lookup (commands v) "cgroup-create".toList = some (cmdCgroupCreate v) :=
    lookup_commands (List.mem_of_getElem? (i := 7) rfl)
  have hexecute : execute v (say "cgroup-create".toList [s ++ u]) =
      cmdCgroupCreate v (some u) := by
    simp only [execute, strsep_create, hcreate, lineArg_token hs hne hu]
  obtain ⟨t, ht⟩ : ∃ t, say "cgroup-create".toList [s ++ u] = 'c' :: t := ⟨_, rfl⟩
  rw [runLine, strim_create hne hu, ← hexecute, ht]
  rfl

theorem createName_say (hs : ∀ c ∈ s, isspace c = true) (hne : u ≠ [])
    (hu : Token u)
    (hlen : (say "cgroup-create".toList [s ++ u]).length < lineMax) :
    createName (say "cgroup-create".toList [s ++ u]) = u.tail := by
  have hcut : strscpy lineMax (say "cgroup-create".toList [s ++ u]) =
      say "cgroup-create".toList [s ++ u] := List.take_of_length_le (by omega)
  rw [createName, readText, hcut, strim_create hne hu, strsep_create, lineArg_token hs hne hu,
    takeArg_token hu]
  rfl

theorem cmdCgroupCreate_ok_iff {name : List Char} (hu : Token u) :
    cmdCgroupCreate v (some u) = .ok (.cgroupCreate name) ↔
      u = '/' :: name ∧ strstr u "..".toList = false ∧ u.length < 48 ∧ name ≠ [] ∧
        v.cgroupExists name = false := by
  unfold cmdCgroupCreate parseCgroup
  rw [takeArg_token hu]
  constructor
  · intro h
    simp only [bind, Except.bind] at h
    split at h
    · cases h
    rename_i taken hparse
    cases h
    split at hparse
    · rename_i name rest htake
      obtain ⟨htoken, rfl⟩ := Prod.mk.inj htake
      have hu' : u = '/' :: name := Option.some.inj htoken
      split_ifs at hparse with hbad hexists
      · cases hparse
        rw [Bool.or_eq_true, not_or, decide_eq_true_eq, Bool.not_eq_true] at hbad
        rw [not_or, Bool.not_eq_true] at hexists
        refine ⟨hu', hu' ▸ hbad.1, ?_, hexists⟩
        rw [hu', List.length_cons]
        omega
    · cases hparse
  · rintro ⟨rfl, hdots, hlen, hne, hexists⟩
    rw [List.length_cons] at hlen
    have hbad : (strstr ('/' :: name) "..".toList || decide (48 ≤ name.length + 1)) = false := by
      rw [hdots, Bool.false_or, decide_eq_false_iff_not]
      omega
    simp only [hbad, Bool.false_eq_true, if_false, if_true, hne, hexists, or_self]
    rfl

theorem cgroupView_exists {name : List Char} :
    (cgroupView made).cgroupExists name = false ↔ parts name ∉ [] :: made := by
  rw [cgroupView, Bool.eq_false_iff, ne_eq, List.any_eq_true, not_iff_not]
  constructor
  · rintro ⟨p, hp, heq⟩
    exact of_decide_eq_true heq ▸ hp
  · intro h
    exact ⟨_, h, decide_eq_true rfl⟩

/-- When a `cgroup-create` line of one token after blanks is accepted. -/
theorem accepted_say_iff (hs : ∀ c ∈ s, isspace c = true) (hne : u ≠ [])
    (hu : Token u) :
    Accepted made (say "cgroup-create".toList [s ++ u]) ↔
      (say "cgroup-create".toList [s ++ u]).length < lineMax ∧ u.head? = some '/' ∧
        strstr u "..".toList = false ∧ u.length < 48 ∧ parts u ∉ [] :: made ∧
          (parts u).dropLast ∈ [] :: made := by
  constructor
  · rintro ⟨hfits, hparses, hparent⟩
    rw [createName_say hs hne hu hfits] at hparses hparent
    rw [runLine_create hs hne hu, Option.some.injEq, cmdCgroupCreate_ok_iff hu,
      cgroupView_exists] at hparses
    obtain ⟨heq, hdots, hlen, -, hfresh⟩ := hparses
    have hparts : parts u = parts u.tail := by
      conv_lhs => rw [heq]
      exact parts_slash _
    rw [hparts]
    exact ⟨hfits, by rw [heq]; rfl, hdots, hlen, hfresh, hparent⟩
  · rintro ⟨hfits, hhead, hdots, hlen, hfresh, hparent⟩
    obtain ⟨name, rfl⟩ := List.head?_eq_some_iff.mp hhead
    rw [parts_slash] at hfresh hparent
    have hname := createName_say hs hne hu hfits
    refine ⟨hfits, ?_, ?_⟩
    · rw [hname, runLine_create hs hne hu, (cmdCgroupCreate_ok_iff hu).mpr]
      refine ⟨rfl, hdots, hlen, ?_, cgroupView_exists.mpr hfresh⟩
      rintro rfl
      exact hfresh (by simp [parts])
    · rwa [hname]

end KStep.Fuzz
