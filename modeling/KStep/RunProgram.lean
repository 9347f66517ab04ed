import KStep.HostSession
import KStep.TextSearch

/-!
# The outcome of a program

`run_program` feeds a program's lines to a session and reads the replies. A `warn` record is kept
until the last line is answered, and the console is looked at only then; a line that gets no reply
ends the run at once. So what was seen before it counts for nothing. Nor does an oops in a log that
is not UTF-8 to its last byte, which is read as if it were empty.
-/

namespace KStep.RunProgram

open Driver TextSearch
open Shm (encode fromUtf8 fromUtf8_eq_some)

inductive Outcome
  | ok
  | warn (what : List Char)
  | timeout (why : List Char)
  deriving DecidableEq

/-- A line of the program with what `Session::cmd` returns for it; `none` is an error. -/
structure Exchange where
  cmd : List Char
  answer : Option Reply

/-- What a run depends on besides its lines: the error of a session that does not start, the bytes
of the console's log, and whether the file can be read. -/
structure World where
  startError : Option (List Char)
  kernelLog : List UInt8
  opens : Bool

def oopsMarkers : List (List Char) :=
  ["Oops".toList, "Kernel panic".toList, "BUG:".toList, "WARNING:".toList, "KASAN:".toList,
    "UBSAN:".toList, "general protection fault".toList]

/-- `fs::read_to_string`, or nothing. -/
def readToString (w : World) : List Char :=
  if w.opens then (fromUtf8 w.kernelLog).getD [] else []

/-- Only from the start of the driver on; a resumed machine's log is all of it. -/
def consoleOops (w : World) : Bool :=
  let log := readToString w
  let run := (find log "Starting cli".toList).getD log
  oopsMarkers.any (contains run)

def isWarn (e : Object) : Bool := e "type".toList == some (.str "warn".toList)

/-- `{cmd:24} {text}` with its newline. -/
def transcriptLine (cmd text : List Char) : List Char :=
  cmd ++ List.replicate (24 - cmd.length) ' ' ++ ' ' :: text ++ ['\n']

variable (render : Object → List Char)

def readEvents (cmd : List Char) (events : List Object)
    (s : Option (List Char) × List Char) : Option (List Char) × List Char :=
  events.foldl (fun s e => (if s.1.isNone && isWarn e then some (render e) else s.1,
    s.2 ++ transcriptLine cmd (render e))) s

def runLines (w : World) :
    List Exchange → Option (List Char) × List Char → Outcome × List Char
  | [], (warn, transcript) =>
      let warn := if warn.isNone && consoleOops w then some "kernel oops/warning in console".toList
        else warn
      (warn.elim .ok .warn, transcript)
  | x :: lines, s => match x.answer with
    | none => (.timeout ("no reply to `".toList ++ x.cmd ++ ['`']), s.2)
    | some r =>
        let s' := readEvents render x.cmd r.events s
        runLines w lines (s'.1, s'.2 ++ transcriptLine x.cmd (render r.reply))

def runProgram (w : World) (lines : List Exchange) : Outcome × List Char :=
  match w.startError with
  | some e => (.timeout ("boot: ".toList ++ e), [])
  | none => runLines render w lines (none, [])

/-- The replies before the first line that gets none. -/
def repliesOf : List Exchange → List Reply
  | [] => []
  | x :: lines => match x.answer with
    | none => []
    | some r => r :: repliesOf lines

def received (w : World) (lines : List Exchange) : List Reply :=
  if w.startError.isNone then repliesOf lines else []

def Warned (w : World) (lines : List Exchange) : Prop :=
  ∃ r ∈ received w lines, ∃ e ∈ r.events, isWarn e = true

/-- The console's bytes from the start of the driver on. -/
def World.console (w : World) : List UInt8 :=
  (find w.kernelLog (encode "Starting cli".toList)).getD w.kernelLog

def World.Oops (w : World) : Prop := ∃ marker ∈ oopsMarkers, encode marker <:+: w.console

/-- A `warn` record was received, or the console shows an oops since the driver started. -/
def Seen (w : World) (lines : List Exchange) : Prop := Warned w lines ∨ w.Oops

/-- The log is a text that can be read. -/
def World.Readable (w : World) : Prop := w.opens = true ∧ ∃ text, w.kernelLog = encode text

/-- What there is to see for who reads the log as a text. -/
def Noticed (w : World) (lines : List Exchange) : Prop :=
  Warned w lines ∨ w.Readable ∧ w.Oops

def Completed (w : World) (lines : List Exchange) : Prop :=
  w.startError = none ∧ ∀ x ∈ lines, x.answer.isSome

/-- An outcome that hides nothing of what was seen. -/
structure Open (seen : Prop) (o : Outcome) : Prop where
  warn : seen → ∃ what, o = .warn what
  timeout : (∃ why, o = .timeout why) → ¬ seen

variable {w : World} {lines : List Exchange}

theorem oopsMarkers_ascii : ∀ marker ∈ oopsMarkers, ∃ c p, marker = c :: p ∧ c.toNat < 128 := by
  intro marker hmarker
  simp only [oopsMarkers, List.mem_cons, List.not_mem_nil, or_false] at hmarker
  rcases hmarker with rfl | rfl | rfl | rfl | rfl | rfl | rfl
  all_goals exact ⟨_, _, rfl, by decide⟩

/-- An oops is found exactly in a log that can be read as text. -/
theorem consoleOops_iff : consoleOops w = true ↔ w.Readable ∧ w.Oops := by
  by_cases hread : w.Readable
  · obtain ⟨hopens, text, htext⟩ := hread
    have hlog : readToString w = text := by
      rw [readToString, if_pos hopens, fromUtf8_eq_some.mpr htext, Option.getD_some]
    have hstart : find (encode text) (encode "Starting cli".toList) =
        (find text "Starting cli".toList).map encode :=
      find_encode (c := 'S') (by decide) "tarting cli".toList text
    have hconsole : w.console = encode ((find text "Starting cli".toList).getD text) := by
      rw [World.console, htext, hstart, Option.getD_map]
    rw [and_iff_right ⟨hopens, text, htext⟩, World.Oops, hconsole, consoleOops, hlog,
      List.any_eq_true]
    refine exists_congr fun marker => and_congr_right fun hmarker => ?_
    obtain ⟨c, p, rfl, hc⟩ := oopsMarkers_ascii marker hmarker
    rw [← contains_encode hc, contains_iff]
  · have hlog : readToString w = [] := by
      rw [readToString]
      split_ifs with hopens
      · rcases htext : fromUtf8 w.kernelLog with _ | text
        · rfl
        · exact absurd ⟨hopens, text, fromUtf8_eq_some.mp htext⟩ hread
      · rfl
    have hnone : consoleOops w = false := by
      rw [consoleOops, hlog]
      rfl
    rw [hnone]
    exact iff_of_false Bool.false_ne_true fun h => hread h.1

theorem readEvents_isSome (cmd : List Char) (events : List Object)
    (s : Option (List Char) × List Char) :
    (readEvents render cmd events s).1.isSome ↔ s.1.isSome ∨ ∃ e ∈ events, isWarn e = true := by
  induction events generalizing s with
  | nil => simp [readEvents]
  | cons e events ih =>
      have hcons : readEvents render cmd (e :: events) s = readEvents render cmd events
          (if s.1.isNone && isWarn e then some (render e) else s.1,
            s.2 ++ transcriptLine cmd (render e)) := rfl
      rw [hcons, ih, List.exists_mem_cons_iff, ← or_assoc]
      refine or_congr_left ?_
      cases s.1 with
      | some what => simp
      | none =>
          cases isWarn e with
          | true => simp
          | false => simp

/-- A run that completes warns when a `warn` was seen so far, comes in a reply, or the console
shows an oops. -/
theorem runLines_completed (h : ∀ x ∈ lines, x.answer.isSome) (warn : Option (List Char))
    (transcript : List Char) :
    (∃ what, (runLines render w lines (warn, transcript)).1 = .warn what) ∧
        (warn.isSome ∨ (∃ r ∈ repliesOf lines, ∃ e ∈ r.events, isWarn e = true) ∨
          consoleOops w = true) ∨
      (runLines render w lines (warn, transcript)).1 = .ok ∧
        ¬ (warn.isSome ∨ (∃ r ∈ repliesOf lines, ∃ e ∈ r.events, isWarn e = true) ∨
          consoleOops w = true) := by
  induction lines generalizing warn transcript with
  | nil =>
      cases warn with
      | some what => exact Or.inl ⟨⟨what, rfl⟩, Or.inl rfl⟩
      | none =>
          cases hoops : consoleOops w with
          | true =>
              refine Or.inl ⟨⟨"kernel oops/warning in console".toList, ?_⟩, Or.inr (Or.inr rfl)⟩
              simp only [runLines, hoops, Option.isNone_none, Bool.and_self, if_true,
                Option.elim_some]
          | false => exact Or.inr ⟨by simp [runLines, hoops], by simp [repliesOf]⟩
  | cons x lines ih =>
      obtain ⟨r, hr⟩ := Option.isSome_iff_exists.mp (h x List.mem_cons_self)
      have hsome := readEvents_isSome render x.cmd r.events (warn, transcript)
      have hnext := ih (fun y hy => h y (List.mem_cons_of_mem _ hy))
        (readEvents render x.cmd r.events (warn, transcript)).1
        ((readEvents render x.cmd r.events (warn, transcript)).2 ++
          transcriptLine x.cmd (render r.reply))
      simp only [runLines, repliesOf, hr, List.exists_mem_cons_iff]
      rw [hsome] at hnext
      simpa only [or_assoc] using hnext

theorem runLines_unanswered (h : ∃ x ∈ lines, x.answer = none) (warn : Option (List Char))
    (transcript : List Char) :
    ∃ why, (runLines render w lines (warn, transcript)).1 = .timeout why := by
  induction lines generalizing warn transcript with
  | nil =>
      obtain ⟨x, hx, -⟩ := h
      cases hx
  | cons x lines ih =>
      simp only [runLines]
      split
      · exact ⟨_, rfl⟩
      next r hr =>
        refine ih ?_ _ _
        obtain ⟨y, hy, hnone⟩ := h
        rcases List.mem_cons.mp hy with rfl | hy
        · rw [hr] at hnone
          cases hnone
        · exact ⟨y, hy, hnone⟩

theorem runProgram_completed (h : Completed w lines) :
    (∃ what, (runProgram render w lines).1 = .warn what) ∧ Noticed w lines ∨
      (runProgram render w lines).1 = .ok ∧ ¬ Noticed w lines := by
  have hrun := runLines_completed render (w := w) h.2 none []
  simp only [Option.isSome_none, Bool.false_eq_true, false_or] at hrun
  rw [Noticed, Warned, received, ← consoleOops_iff, runProgram, h.1]
  exact hrun

theorem Noticed.seen (h : Noticed w lines) : Seen w lines := h.imp_right And.right

/-- Who can read the log notices what is seen. -/
theorem Seen.noticed (h : Seen w lines) (hread : Warned w lines ∨ w.Readable) :
    Noticed w lines := by
  rcases h with hwarned | hoops
  · exact Or.inl hwarned
  · exact hread.imp_right fun hreadable => ⟨hreadable, hoops⟩

theorem runProgram_cut_short (h : ¬ Completed w lines) :
    ∃ why, (runProgram render w lines).1 = .timeout why := by
  rw [runProgram]
  cases hstart : w.startError with
  | some e => exact ⟨_, rfl⟩
  | none =>
      refine runLines_unanswered render ?_ none []
      by_contra hall
      refine h ⟨hstart, fun x hx => ?_⟩
      by_contra hx'
      exact hall ⟨x, hx, Option.not_isSome_iff_eq_none.mp hx'⟩

/-- The outcome hides nothing exactly when the session starts and every line gets its reply, with a
`warn` record received or the log a text that can be read; or there was nothing to hide. -/
theorem runProgram_open_iff (w : World) (lines : List Exchange) :
    Open (Seen w lines) (runProgram render w lines).1 ↔
      Completed w lines ∧ (Warned w lines ∨ w.Readable) ∨ ¬ Seen w lines := by
  by_cases hdone : Completed w lines
  · rw [and_iff_right hdone]
    rcases runProgram_completed render hdone with ⟨⟨what, hwarn⟩, hnoticed⟩ | ⟨hok, hnoticed⟩
    · have hread : Warned w lines ∨ w.Readable := hnoticed.imp_right And.left
      refine iff_of_true ⟨fun _ => ⟨what, hwarn⟩, ?_⟩ (Or.inl hread)
      rintro ⟨why, hwhy⟩
      cases hwarn.symm.trans hwhy
    · constructor
      · intro h
        refine Or.inr fun hseen => ?_
        obtain ⟨what, hwhat⟩ := h.warn hseen
        cases hok.symm.trans hwhat
      · intro h
        have hseen : ¬ Seen w lines := by
          intro hseen
          rcases h with hread | hnone
          · exact hnoticed (hseen.noticed hread)
          · exact hnone hseen
        refine ⟨fun hs => absurd hs hseen, ?_⟩
        rintro ⟨why, hwhy⟩
        cases hok.symm.trans hwhy
  · rw [or_iff_right fun h => hdone h.1]
    exact ⟨fun h => h.timeout (runProgram_cut_short render hdone),
      fun hseen => ⟨fun hs => absurd hs hseen, fun _ => hseen⟩⟩

def warnRecord : Object := fun key =>
  if key = "type".toList then some (.str "warn".toList) else none

def warnThenStall : List Exchange :=
  [⟨"tick".toList, some ⟨fun _ => none, [warnRecord]⟩⟩, ⟨"tick".toList, none⟩]

theorem warning_hidden : ¬ ∀ (render : Object → List Char) (w : World) (lines : List Exchange),
    Open (Seen w lines) (runProgram render w lines).1 := by
  intro h
  have hopen := h (fun _ => []) ⟨none, [], true⟩ warnThenStall
  refine hopen.timeout ⟨_, rfl⟩ (Or.inl ⟨_, List.mem_cons_self, warnRecord, List.mem_cons_self, ?_⟩)
  decide

end KStep.RunProgram
