import KStep.Executor
import KStep.FuzzSayable
import KStep.Lines

/-!
# A finding replayed

`save_finding` writes a program to a file behind a comment that says why, and `kstep run -i` reads
commands from such a file: it trims each line, passes over blank lines and comments and stops at
`exit`. A program that the fuzzer has decoded comes back as it was, behind what a reason of several
lines adds.
-/

namespace KStep.Replay

open Fuzz Findings Lines Trim RunProgram Driver Executor

inductive Turn
  | skip
  | stop
  | send (cmd : Line)
  deriving DecidableEq

/-- The match on the trimmed line; `last` is the command an empty line repeats at the prompt. -/
def turn (interactive : Bool) (last line : Line) : Turn :=
  match trim line with
  | [] => if interactive && !last.isEmpty then .send last else .skip
  | c :: l =>
      if c = '#' then .skip else if c :: l = "exit".toList then .stop else .send (c :: l)

/-- The commands `repl` sends for the lines of its input, as long as they are answered. -/
def commands (interactive : Bool) : Line → List Line → List Line
  | _, [] => []
  | last, line :: input => match turn interactive last line with
    | .skip => commands interactive last input
    | .stop => []
    | .send cmd => cmd :: commands interactive cmd input

/-- The lines `read_line` returns, each with its newline; what follows the last one is a line too. -/
def readLines (text : List Char) : List Line :=
  (lines '\n' text).map (· ++ ['\n']) ++ ((text.splitOn '\n').getLast?.toList.filter (· ≠ []))

def replay (text : List Char) : List Line := commands false [] (readLines text)

/-- A line that is neither blank nor a comment once it is trimmed. -/
def isCommand (line : Line) : Bool := !line.isEmpty && line.head? ≠ some '#'

variable {line : Line} {ls : List Line} {c : Char}

theorem isWhitespace_newline : isWhitespace '\n' = true := by decide

theorem trim_newline (line : Line) : trim (line ++ ['\n']) = trim line :=
  trimBy_append_pos fun c hc => by rw [List.mem_singleton.mp hc]; exact isWhitespace_newline

/-- From a file, the commands are the trimmed lines that are commands, up to `exit`. -/
theorem commands_eq (last : Line) (ls : List Line) :
    commands false last ls =
      ((ls.map trim).filter isCommand).takeWhile fun l => decide (l ≠ "exit".toList) := by
  induction ls generalizing last with
  | nil => rfl
  | cons line ls ih =>
      rw [commands, turn, List.map_cons]
      rcases trim line with _ | ⟨c, l⟩
      · exact ih last
      · by_cases hc : c = '#'
        · rw [List.filter_cons_of_neg (by simp [isCommand, hc])]
          simp only [if_pos hc]
          exact ih last
        · rw [List.filter_cons_of_pos (by simp [isCommand, hc])]
          simp only [if_neg hc]
          by_cases hexit : c :: l = "exit".toList
          · simp only [if_pos hexit]
            rw [List.takeWhile_cons_of_neg (by simpa using hexit)]
          · simp only [if_neg hexit]
            rw [List.takeWhile_cons_of_pos (by rw [decide_eq_true_eq]; exact hexit), ih]

theorem readLines_unlines (h : ∀ l ∈ ls, '\n' ∉ l) :
    readLines (unlines '\n' ls) = ls.map (· ++ ['\n']) := by
  rw [readLines, lines_unlines h, splitOn_unlines h, List.getLast?_concat]
  exact List.append_nil _

/-- What a file of lines makes `repl` send. -/
theorem replay_unlines (h : ∀ l ∈ ls, '\n' ∉ l) :
    replay (unlines '\n' ls) =
      ((ls.map trim).filter isCommand).takeWhile fun l => decide (l ≠ "exit".toList) := by
  rw [replay, readLines_unlines h, commands_eq, List.map_map]
  simp only [Function.comp_def, trim_newline]

theorem intercalate_unlines (l : Line) (ls : List Line) :
    ['\n'].intercalate (l :: ls) ++ ['\n'] = unlines '\n' (l :: ls) := by
  induction ls generalizing l with
  | nil => simp [unlines]
  | cons l' ls ih =>
      rw [List.intercalate_cons_cons, List.append_assoc, List.append_assoc, ih]
      simp [unlines]

/-- The commands in the lines of a reason after its first, which the comment's `#` is not before. -/
def extraCommands (why : List Char) : List Line :=
  ((lines '\n' (why ++ ['\n'])).tail.map trim).filter isCommand

/-- The file of a finding is its reason behind a `#` and then its program. -/
theorem file_cli (f : Finding) (hne : f.lines ≠ []) : ∃ w ws,
    lines '\n' (f.why ++ ['\n']) = w :: ws ∧
      f.file .cli = unlines '\n' (("# ".toList ++ w) :: (ws ++ f.lines)) := by
  obtain ⟨l, ls, hls⟩ := List.exists_cons_of_ne_nil hne
  obtain ⟨hjoin, -⟩ := @lines_concat Char '\n' _ _ f.why
  rcases hwhy : lines '\n' (f.why ++ ['\n']) with _ | ⟨w, ws⟩
  · rw [hwhy] at hjoin
    exact absurd hjoin.symm (List.append_ne_nil_of_right_ne_nil _ (List.cons_ne_nil _ _))
  refine ⟨w, ws, rfl, ?_⟩
  rw [hwhy] at hjoin
  have hfile : f.file .cli =
      "# ".toList ++ (f.why ++ ['\n']) ++ (['\n'].intercalate f.lines ++ ['\n']) := by
    simp [Finding.file]
  rw [hfile, ← hjoin, hls, intercalate_unlines]
  simp [unlines]

theorem trim_comment (why : Line) : ∃ rest, trim ("# ".toList ++ why) = '#' :: rest :=
  ⟨_, trimBy_cons (p := isWhitespace) (by decide)⟩

/-- A finding's file is replayed as the commands of its reason and of its program, up to `exit`. -/
theorem replay_file (f : Finding) (hne : f.lines ≠ []) (hlines : ∀ l ∈ f.lines, '\n' ∉ l) :
    replay (f.file .cli) = (extraCommands f.why ++ (f.lines.map trim).filter isCommand).takeWhile
      fun l => decide (l ≠ "exit".toList) := by
  obtain ⟨w, ws, hwhy, hfile⟩ := file_cli f hne
  obtain ⟨-, hnone⟩ := @lines_concat Char '\n' _ _ f.why
  rw [hwhy] at hnone
  have hcomment : '\n' ∉ "# ".toList ++ w := by
    rw [List.mem_append]
    rintro (h | h)
    · exact absurd h (by decide)
    · exact hnone w List.mem_cons_self h
  rw [hfile, replay_unlines, extraCommands, hwhy]
  · obtain ⟨rest, hrest⟩ := trim_comment w
    rw [List.map_cons, hrest, List.filter_cons_of_neg (by simp [isCommand]), List.map_append,
      List.filter_append]
    rfl
  · intro l hl
    rcases List.mem_cons.mp hl with rfl | hl
    · exact hcomment
    · rcases List.mem_append.mp hl with hl | hl
      · exact hnone l (List.mem_cons_of_mem _ hl)
      · exact hlines l hl

/-- A reason on one line adds no command. -/
theorem extraCommands_of_not_mem {why : List Char} (h : '\n' ∉ why) : extraCommands why = [] := by
  rw [extraCommands, lines_append h, lines_of_not_mem List.not_mem_nil]
  rfl

def Word (w : Line) : Prop := w ≠ [] ∧ ∀ c ∈ w, isWhitespace c = false

instance : DecidablePred Word := fun w =>
  @instDecidableAnd (w ≠ []) _ inferInstance (List.decidableBAll _ w)

structure Sendable (line : Line) : Prop where
  newline : '\n' ∉ line
  head : ∃ c rest, line = c :: rest ∧ isWhitespace c = false ∧ c ≠ '#'
  last : ∃ rest c, line = rest ++ [c] ∧ isWhitespace c = false
  exit : line ≠ "exit".toList

theorem Sendable.trim_eq (h : Sendable line) : trim line = line := by
  obtain ⟨c, rest, hline, hc, -⟩ := h.head
  obtain ⟨rest', c', hline', hc'⟩ := h.last
  have hdrop : line.dropWhile isWhitespace = line := by
    rw [hline, List.dropWhile_cons_of_neg (by simp [hc])]
  rw [trim, trimBy, hdrop, hline']
  exact List.rdropWhile_concat_neg _ _ _ (by simp [hc'])

theorem Sendable.isCommand (h : Sendable line) : isCommand line = true := by
  obtain ⟨c, rest, rfl, -, hc⟩ := h.head
  simp [Replay.isCommand, hc]

/-- Sendable lines are replayed as they are, behind what the reason adds. -/
theorem replay_sendable (f : Finding) (hne : f.lines ≠ []) (hlines : ∀ l ∈ f.lines, Sendable l) :
    replay (f.file .cli) =
      (extraCommands f.why ++ f.lines).takeWhile fun l => decide (l ≠ "exit".toList) := by
  have htrim : f.lines.map trim = f.lines := by
    conv_rhs => rw [← List.map_id f.lines]
    exact List.map_congr_left fun l hl => (hlines l hl).trim_eq
  rw [replay_file f hne fun l hl => (hlines l hl).newline, htrim,
    List.filter_eq_self.mpr fun l hl => (hlines l hl).isCommand]

theorem Word.newline {w : Line} (h : Word w) : '\n' ∉ w := by
  intro hmem
  have hfalse := h.2 _ hmem
  rw [isWhitespace_newline] at hfalse
  cases hfalse

/-- Words behind a line keep it sendable, but for `exit`. -/
theorem sendable_say {verb : Line} {args : List Line} (hverb : Word verb)
    (hhash : verb.head? ≠ some '#') (hargs : ∀ a ∈ args, Word a)
    (hexit : say verb args ≠ "exit".toList) : Sendable (say verb args) := by
  refine ⟨?_, ?_, ?_, hexit⟩
  · intro hmem
    rcases List.mem_append.mp hmem with hmem | hmem
    · exact hverb.newline hmem
    · obtain ⟨a, ha, hmem⟩ := List.mem_flatMap.mp hmem
      rcases List.mem_cons.mp hmem with hmem | hmem
      · cases hmem
      · exact (hargs a ha).newline hmem
  · obtain ⟨c, rest, rfl⟩ := List.exists_cons_of_ne_nil hverb.1
    refine ⟨c, _, rfl, hverb.2 c List.mem_cons_self, fun hc => hhash ?_⟩
    rw [hc]
    rfl
  · rcases List.eq_nil_or_concat' args with rfl | ⟨args, a, rfl⟩
    · obtain ⟨rest, c, rfl⟩ := (List.eq_nil_or_concat' verb).resolve_left hverb.1
      exact ⟨rest, c, List.append_nil _, hverb.2 c (by simp)⟩
    · have ha := hargs a (by simp)
      obtain ⟨rest, c, rfl⟩ := (List.eq_nil_or_concat' a).resolve_left ha.1
      refine ⟨verb ++ (args.flatMap fun arg => ' ' :: arg) ++ ' ' :: rest, c, ?_, ha.2 c (by simp)⟩
      simp [say]

theorem say_ne_exit {verb a : Line} {args : List Line} : say verb (a :: args) ≠ "exit".toList := by
  intro h
  have hblank : ' ' ∈ say verb (a :: args) := by simp [say]
  rw [h] at hblank
  exact absurd hblank (by decide)

theorem line_ne_exit (cmd : Command) : cmd.line ≠ "exit".toList := by
  cases cmd with
  | tick => decide
  | create => decide
  | cpuFreq => exact say_ne_exit
  | policyFair => exact say_ne_exit
  | policyRt => exact say_ne_exit
  | affinity => exact say_ne_exit
  | kill => exact say_ne_exit
  | cgroupCreate => exact say_ne_exit
  | cgroupWeight => exact say_ne_exit
  | cgroupDestroy => exact say_ne_exit
  | cgroupAttach => exact say_ne_exit
  | taskVerb => exact say_ne_exit

theorem word_of_digits {w : Line} (hne : w ≠ [])
    (h : ∀ c ∈ w, c.isDigit = true ∨ c = ',' ∨ c = '-') :
    Word w := by
  refine ⟨hne, fun c hc => ?_⟩
  rcases h c hc with hdigit | rfl | rfl
  · simp only [Char.isDigit, Bool.and_eq_true, decide_eq_true_eq] at hdigit
    have hlo : 48 ≤ c.toNat := hdigit.1
    have hhi : c.toNat ≤ 57 := hdigit.2
    simp [isWhitespace]
    omega
  · decide
  · decide

theorem word_dec (n : ℕ) : Word (dec n) := by
  refine word_of_digits ?_ fun c hc => Or.inl (dec_digits hc)
  have hdigits : dec n = Nat.toDigits 10 n := String.toList_ofList
  rw [hdigits]
  exact Nat.toDigits_ne_nil

theorem word_decInt (z : ℤ) : Word (decInt z) := by
  rcases z with n | n
  · exact word_dec n
  · have hsign : toString (Int.negSucc n) = "-" ++ toString (n + 1) := rfl
    rw [decInt, hsign, String.toList_append]
    refine word_of_digits (List.cons_ne_nil _ _) fun c hc => ?_
    rcases List.mem_cons.mp hc with rfl | hc
    · exact Or.inr (Or.inr rfl)
    · exact Or.inl (dec_digits hc)

theorem word_cpuText (n : ℕ) (cpus : List ℕ) : Word (cpuText (n :: cpus)) := by
  induction cpus generalizing n with
  | nil =>
      rw [cpuText, List.map_singleton, List.intercalate_singleton]
      exact word_dec n
  | cons m cpus ih =>
      rw [cpuText_cons]
      refine ⟨by simp, fun c hc => ?_⟩
      rcases List.mem_append.mp hc with hc | hc
      · exact (word_dec n).2 c hc
      · rcases List.mem_cons.mp hc with rfl | hc
        · decide
        · exact (ih m).2 c hc

theorem word_cgroupPath {parent : Line} (n : ℕ) (h : parent = [] ∨ Word parent) :
    Word (cgroupPath parent n) := by
  have hg : Word "/g".toList := by decide
  refine ⟨by simp [cgroupPath], fun c hc => ?_⟩
  rcases List.mem_append.mp hc with hc | hc
  · rcases List.mem_append.mp hc with hc | hc
    · rcases h with rfl | h
      · cases hc
      · exact h.2 c hc
    · exact hg.2 c hc
  · exact (word_dec n).2 c hc

/-- What an entry of `bugs.yaml` needs for its programs to be written to a file and read back. -/
structure Writable (bug : Bug) : Prop where
  cpus : 2 ≤ bug.numCpus
  verbs : bug.KnownVerbs
  checks : ∀ c ∈ bug.checks, Word c
  setup : ∀ l ∈ bug.setup, Sendable l
  cgroups : ∀ l ∈ bug.setup, (splitOnce l).1 = "cgroup-create".toList → Word (splitOnce l).2

variable {bug : Bug} {d : Decoder} {r : Record} {cmd : Command}

theorem word_verb (h : cmd.Allowed bug (· ∈ d.alive) (· ∈ d.cgroups)) :
    Word cmd.verb ∧ cmd.verb.head? ≠ some '#' := by
  have harms : ∀ e ∈ arms, Word e.1 ∧ e.1.head? ≠ some '#' := by decide
  have hverbs : ∀ verb ∈ oneTaskVerbs, Word verb ∧ verb.head? ≠ some '#' := by decide
  exact (verb_mem h).elim (harms _) (hverbs _)

theorem word_args (h : cmd.Allowed bug (· ∈ d.alive) (· ∈ d.cgroups))
    (hd : ∀ path ∈ d.cgroups, Word path) : ∀ a ∈ cmd.args, Word a := by
  have hfair : ∀ policy ∈ fairPolicies, Word policy := by decide
  have hrt : ∀ policy ∈ rtPolicies, Word policy := by decide
  have hroot : Word "/".toList := by decide
  cases cmd with
  | tick => exact fun a ha => absurd ha List.not_mem_nil
  | create => exact fun a ha => absurd ha List.not_mem_nil
  | cpuFreq cpu scale => simp [Command.args, word_dec]
  | policyFair t policy nice => simp [Command.args, word_dec, word_decInt, hfair policy h.2.1]
  | policyRt t policy prio => simp [Command.args, word_dec, hrt policy h.2.1]
  | affinity t cpus =>
      obtain ⟨n, cpus, rfl⟩ := List.exists_cons_of_ne_nil h.2.1
      simp [Command.args, word_dec, word_cpuText]
  | kill t => simp [Command.args, word_dec]
  | cgroupCreate parent n =>
      simp [Command.args, word_cgroupPath n (h.imp_right (hd parent))]
  | cgroupWeight path weight => simp [Command.args, word_dec, hd path h.1]
  | cgroupDestroy path => simp [Command.args, hd path h]
  | cgroupAttach path t =>
      have hpath : Word path := h.1.elim (fun heq => heq ▸ hroot) (hd path)
      simp [Command.args, word_dec, hpath]
  | taskVerb verb t => simp [Command.args, word_dec]

/-- The line of a record is sendable, and its command keeps the cgroups' paths words. -/
theorem sendable_record (hbug : Writable bug) (hd : ∀ path ∈ d.cgroups, Word path) (r : Record) :
    Sendable (bug.record d r).2 ∧ ∀ path ∈ (bug.record d r).1.cgroups, Word path := by
  have hallowed := command_allowed hbug.cpus hbug.verbs d r
  obtain ⟨hverb, hhash⟩ := word_verb hallowed
  rw [record_eq]
  constructor
  · exact sendable_say hverb hhash (word_args hallowed hd) (line_ne_exit _)
  · generalize bug.command d r = cmd at hallowed
    cases cmd with
    | cgroupCreate parent n =>
        intro path hpath
        rcases List.mem_append.mp hpath with hpath | hpath
        · exact hd path hpath
        · rw [List.mem_singleton.mp hpath]
          exact word_cgroupPath n (hallowed.imp_right (hd parent))
    | _ => exact hd

theorem sendable_records (hbug : Writable bug) (hd : ∀ path ∈ d.cgroups, Word path)
    (rs : List Record) : ∀ e ∈ recordProgram bug d rs, Sendable e.1 := by
  induction rs generalizing d with
  | nil => exact fun e he => absurd he List.not_mem_nil
  | cons r rs ih =>
      obtain ⟨hline, hnext⟩ := sendable_record hbug hd r
      intro e he
      rcases List.mem_cons.mp he with rfl | he
      · exact hline
      · exact ih hnext e he

theorem cgroups_setup (ls : List Line)
    (h : ∀ l ∈ ls, (splitOnce l).1 = "cgroup-create".toList → Word (splitOnce l).2)
    (hd : ∀ path ∈ d.cgroups, Word path) :
    ∀ path ∈ (ls.foldl Decoder.setup d).cgroups, Word path := by
  induction ls generalizing d with
  | nil => exact hd
  | cons l ls ih =>
      refine ih (fun l' hl' => h l' (List.mem_cons_of_mem _ hl')) ?_
      have hl := h l List.mem_cons_self
      simp only [Decoder.setup]
      split_ifs with hcreate hcgroup
      · exact hd
      · intro path hpath
        rcases List.mem_append.mp hpath with hpath | hpath
        · exact hd path hpath
        · rw [List.mem_singleton.mp hpath]
          exact hl hcgroup
      · exact hd

theorem setupProgram_lines (d : Decoder) (ls : List Line) :
    (setupProgram d ls).map Prod.fst = ls := by
  induction ls generalizing d with
  | nil => rfl
  | cons l ls ih => rw [setupProgram, List.map_cons, ih]

/-- Every line of a decoded program is sendable. -/
theorem sendable_decode (hbug : Writable bug) (bytes : List UInt8) :
    ∀ l ∈ (decode bytes bug).map Prod.fst, Sendable l := by
  have hcheck : Word "check".toList := by decide
  intro l hl
  simp only [decode, List.map_append, List.mem_append, List.map_map, setupProgram_lines] at hl
  rcases hl with hl | hl | hl | hl
  · obtain ⟨c, hc, rfl⟩ := List.mem_map.mp hl
    refine sendable_say hcheck (by decide) (fun a ha => ?_) say_ne_exit
    rw [List.mem_singleton.mp ha]
    exact hbug.checks c hc
  · exact hbug.setup l hl
  · obtain ⟨e, he, rfl⟩ := List.mem_map.mp hl
    exact sendable_records hbug
      (cgroups_setup bug.setup hbug.cgroups fun path hpath => absurd hpath List.not_mem_nil) _ e he
  · obtain ⟨e, he, rfl⟩ := List.mem_map.mp hl
    rw [(List.mem_replicate.mp he).2]
    exact @sendable_say "tick".toList [] (by decide) (by decide)
      (fun a ha => absurd ha List.not_mem_nil) (by decide)

section Why

variable {render : Object → List Char} {w : World} {xs : List Exchange}

theorem readEvents_newline (hrender : ∀ e, '\n' ∉ render e) (cmd : List Char) (events : List Object)
    (s : Option (List Char) × List Char) (hs : ∀ what, s.1 = some what → '\n' ∉ what) :
    ∀ what, (readEvents render cmd events s).1 = some what → '\n' ∉ what := by
  induction events generalizing s with
  | nil => exact hs
  | cons e events ih =>
      refine ih _ fun what hwhat => ?_
      dsimp only at hwhat
      split_ifs at hwhat
      · cases hwhat
        exact hrender e
      · exact hs what hwhat

def OneLine : Outcome → Prop
  | .ok => True
  | .warn what => '\n' ∉ what
  | .timeout why => '\n' ∉ why

theorem runLines_oneLine (hrender : ∀ e, '\n' ∉ render e) (hxs : ∀ x ∈ xs, '\n' ∉ x.cmd)
    (s : Option (List Char) × List Char) (hs : ∀ what, s.1 = some what → '\n' ∉ what) :
    OneLine (runLines render w xs s).1 := by
  induction xs generalizing s with
  | nil =>
      obtain ⟨warn, transcript⟩ := s
      simp only [runLines]
      split_ifs
      · change '\n' ∉ "kernel oops/warning in console".toList
        decide
      · cases warn with
        | none => trivial
        | some what => exact hs what rfl
  | cons x xs ih =>
      simp only [runLines]
      split
      · have hcmd := hxs x List.mem_cons_self
        change '\n' ∉ "no reply to `".toList ++ x.cmd ++ ['`']
        simp [hcmd]
      · exact ih (fun y hy => hxs y (List.mem_cons_of_mem _ hy)) _
          (readEvents_newline hrender x.cmd _ s hs)

theorem runProgram_oneLine (hrender : ∀ e, '\n' ∉ render e) (hxs : ∀ x ∈ xs, '\n' ∉ x.cmd)
    (hstart : ∀ e, w.startError = some e → '\n' ∉ e) : OneLine (runProgram render w xs).1 := by
  rw [runProgram]
  split
  · rename_i e he
    have hboot : '\n' ∉ "boot: ".toList := by decide
    change '\n' ∉ "boot: ".toList ++ e
    rw [List.mem_append, not_or]
    exact ⟨hboot, hstart e he⟩
  · exact runLines_oneLine hrender hxs _ fun what h => by cases h

end Why

/-- The reason of a finding is one line, unless it is the error of a start with more. -/
theorem why_oneLine {render : Object → List Char} (hrender : ∀ e, '\n' ∉ render e) {c : Config}
    (hbug : Writable c.bug) {t : TestCase}
    (hstart : ∀ e, t.buggy.world.startError = some e → '\n' ∉ e) {why : List Char}
    (h : (verdict render c t).2 = some why) : '\n' ∉ why := by
  have hxs : ∀ x ∈ t.buggy.exchanges (c.program t), '\n' ∉ x.cmd := by
    intro x hx
    obtain ⟨⟨l, i⟩, hmem, rfl⟩ := List.mem_map.mp hx
    have hl : l ∈ c.program t := List.fst_mem_of_mem_zipIdx hmem
    exact (sendable_decode hbug t.bytes l hl).newline
  have hline := runProgram_oneLine hrender hxs hstart
  rw [verdict, Kernel.outcome] at h
  split at h
  · cases h
  · rename_i what hwhat
    rw [hwhat] at hline
    split at h
    · rename_i how hhow
      cases h
      have hquiet : '\n' ∉ how := by
        rw [confirmedOnFixed] at hhow
        split_ifs at hhow
        · split at hhow
          · cases hhow
            decide
          · cases hhow
          · cases hhow
        · cases hhow
          decide
      have hwhat' : '\n' ∉ what := hline
      simp [hwhat', hquiet]
    · cases h
  · rename_i why' hwhy
    rw [hwhy] at hline
    cases h
    have hwhy' : '\n' ∉ why' := hline
    simp [hwhy']

/-- The file of a finding, given to `kstep run -i`, sends the program that was found, whatever bytes
it was decoded from and whatever it is saved for; before it go the commands that the reason is read
as after its first line, and there are none unless a session did not start and its error has more
lines than one. -/
theorem finding_replays {render : Object → List Char} (hrender : ∀ e, '\n' ∉ render e) {c : Config}
    (hbug : Writable c.bug) {t : TestCase} {f : Finding} (h : findingOf render c t = some f) :
    replay (f.file .cli) = (extraCommands f.why ++ c.program t).takeWhile
        (fun l => decide (l ≠ "exit".toList)) ∧
      (extraCommands f.why = [] → replay (f.file .cli) = c.program t) ∧
      (extraCommands f.why ≠ [] → ∃ e, t.buggy.world.startError = some e ∧ '\n' ∈ e) := by
  obtain ⟨why, hwhy, rfl⟩ := Option.map_eq_some_iff.mp h
  have hticks : c.program t ≠ [] := by simp [Config.program, decode]
  have hlines := sendable_decode hbug t.bytes
  have hreplay := replay_sendable
    ⟨c.program t, (t.buggy.outcome render (c.program t)).2, why, t.kernelLog⟩ hticks hlines
  refine ⟨hreplay, fun hnone => ?_, fun hextra => ?_⟩
  · rw [hreplay, hnone, List.nil_append]
    exact List.takeWhile_eq_self_iff.mpr fun l hl => decide_eq_true (hlines l hl).exit
  · by_contra hstart
    refine hextra (extraCommands_of_not_mem (why_oneLine hrender hbug (fun e he hline => ?_) hwhy))
    exact hstart ⟨e, he, hline⟩

/-- An entry of `bugs.yaml` with a check, a cgroup and tasks in its setup, and a verb of its own. -/
def attachBug : Bug :=
  ⟨4, ["pelt".toList], ["cgroup-attach".toList], ["create 2".toList, "cgroup-create /a".toList]⟩

theorem attachBug_writable : Writable attachBug where
  cpus := by decide
  verbs := by
    unfold Bug.KnownVerbs
    decide
  checks := by decide
  setup l hl := by
    simp only [attachBug, List.mem_cons, List.not_mem_nil, or_false] at hl
    rcases hl with rfl | rfl
    · exact @sendable_say "create".toList ["2".toList] (by decide) (by decide) (by decide) say_ne_exit
    · exact @sendable_say "cgroup-create".toList ["/a".toList] (by decide) (by decide) (by decide)
        say_ne_exit
  cgroups := by decide

def hangingCase : TestCase := ⟨[5, 1, 1, 0], hanging, answering [], [], fun _ => true⟩

def attachClient : Config := ⟨attachBug, ⟨by decide, by decide⟩, true, 0⟩

theorem finding_replays_hanging :
    (findingOf (fun _ => "{}".toList) attachClient hangingCase).map
        (fun f => replay (f.file .cli)) =
      some ["check pelt".toList, "create 2".toList, "cgroup-create /a".toList,
        "cgroup-attach /a 2".toList, "tick".toList, "tick".toList, "tick".toList] := by
  obtain ⟨f, hf⟩ : ∃ f, findingOf (fun _ => "{}".toList) attachClient hangingCase = some f := ⟨_, rfl⟩
  rw [hf, Option.map_some]
  obtain ⟨-, hreplay, hextra⟩ := finding_replays (fun _ => by decide) attachBug_writable hf
  refine congrArg some (hreplay ?_)
  by_contra hnone
  obtain ⟨e, he, -⟩ := hextra hnone
  cases he

end KStep.Replay
