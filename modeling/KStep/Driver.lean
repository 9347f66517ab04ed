import KStep.Replies
import KStep.Runs

/-!
# The driver's loop

`run` writes the ready line and then answers one line after another: it opens the reply, executes
the command, settles, updates the shared region and closes the reply. Meanwhile hooks write event
records from any CPU. A record takes its timestamp when it is opened and its place in the stream
when it is closed, so the two ends of each record are steps of their own.
-/

namespace KStep.Driver

open FlatJson Cli CString Runs

def lineMax : ℕ := 128

def cString (bytes : List UInt8) : List Char :=
  (bytes.takeWhile (· ≠ 0)).map fun b => Char.ofNat b.toNat

def commandLine (bytes : List UInt8) : Option (List Char) :=
  match strim (cString (bytes.take (lineMax - 1))) with
  | [] => none
  | '#' :: _ => none
  | line => some line

/-- The records the hooks write. The formats and names they print are plain texts. -/
inductive Event
  /-- `kstep_output_balance` -/
  | loadBalance (dstCpu : ℕ) (span name : { s : List Char // PlainText s })
  /-- `kstep_output_migrate` -/
  | migrate (task srcCpu dstCpu : ℕ)
  /-- `kstep_warn` -/
  | warn (check message : { s : List Char // PlainText s })

def typeField (name : String) : Field := ("type".toList, .str name.toList)

def Event.fields : Event → List Field
  | .loadBalance dstCpu span name =>
      [typeField "load_balance", ("dst_cpu".toList, .num dstCpu), ("span".toList, .str span),
        ("name".toList, .str name)]
  | .migrate task srcCpu dstCpu =>
      [typeField "migrate", ("task".toList, .num task), ("src_cpu".toList, .num srcCpu),
        ("dst_cpu".toList, .num dstCpu)]
  | .warn check message =>
      [typeField "warn", ("check".toList, .str check), ("message".toList, .str message)]

def readyFields (shm cov : ℕ) : List Field :=
  [("ready".toList, .bool true), ("shm".toList, .num shm), ("cov".toList, .num cov)]

inductive Kind
  | ready (shm cov : ℕ)
  | event (e : Event)
  /-- the reply to a line -/
  | reply (bytes : List UInt8) (fields : List Field)

def Kind.fields : Kind → List Field
  | .ready shm cov => readyFields shm cov
  | .event e => e.fields
  | .reply _ fields => fields

def Kind.isReply : Kind → Bool
  | .reply _ _ => true
  | _ => false

/-- An open record: `kstep_json_begin` has given it its timestamp. Records are numbered in the order
in which they are opened. -/
structure Opened where
  timestamp : ℕ
  number : ℕ

structure Entry extends Opened where
  kind : Kind

def Entry.record (x : Entry) : Record := timestampField x.timestamp :: x.kind.fields

/-- The line being executed, with the session as its parsers see it, and the ticks still to do. -/
structure Busy where
  bytes : List UInt8
  line : List Char
  view : CliView
  reply : Opened
  ticks : ℕ

inductive Phase
  | boot
  | reading
  | busy (b : Busy)
  | ended

/-- `begun` counts the records opened so far, `opened` are the event records between their begin and
their end, and `written` the records in the order `kstep_io_write` has sent them. -/
structure State where
  jiffies : ℕ
  phase : Phase
  begun : ℕ
  opened : List Opened
  written : List Entry

def State.boot : State := ⟨0, .boot, 0, [], []⟩

def State.begin (d : State) : Opened := ⟨d.jiffies, d.begun⟩

def State.write (d : State) (o : Opened) (kind : Kind) : Option State :=
  (writeRecord o.timestamp kind.fields).map fun _ => { d with written := d.written ++ [⟨o, kind⟩] }

inductive Act
  | ready (shm cov : ℕ)
  /-- `kstep_io_readline` returns a line, and the reply is opened unless it is skipped -/
  | readline (bytes : List UInt8) (view : CliView)
  /-- `kstep_jiffies_tick` -/
  | tick
  | eventBegin
  /-- the end of the `i`-th open event record -/
  | eventEnd (i : ℕ) (e : Event)
  /-- `kstep_json_end(&reply)` -/
  | close (a : Answers)

def commandTicks (v : CliView) (line : List Char) : ℕ :=
  match execute v line with
  | .ok (.tick n) => n.toNat
  | _ => 0

def more (v : CliView) (line : List Char) : Bool := execute v line ≠ .ok .exit

def State.step (d : State) (e : Act) : Option State :=
  match e, d.phase with
  | .ready shm cov, .boot =>
      ({ d with phase := .reading, begun := d.begun + 1 } : State).write d.begin (.ready shm cov)
  | .readline bytes v, .reading => match commandLine bytes with
    | none => some d
    | some line =>
        some { d with
          phase := .busy ⟨bytes, line, v, d.begin, commandTicks v line⟩
          begun := d.begun + 1 }
  | .tick, .busy b =>
      if b.ticks = 0 then none
      else some { d with
        jiffies := d.jiffies + 1
        phase := .busy { b with ticks := b.ticks - 1 } }
  | .eventBegin, _ =>
      some { d with begun := d.begun + 1, opened := d.opened ++ [d.begin] }
  | .eventEnd i event, _ => match d.opened[i]? with
    | none => none
    | some o => ({ d with opened := d.opened.eraseIdx i } : State).write o (.event event)
  | .close a, .busy b =>
      if b.ticks ≠ 0 then none
      else match replyFields b.view a b.line with
        | none => none
        | some fields =>
            ({ d with phase := if more b.view b.line then .reading else .ended } : State).write
              b.reply (.reply b.bytes fields)
  | _, _ => none

variable {d d' : State} {e : Act} {o : Opened} {kind : Kind}

theorem State.write_some (h : d.write o kind = some d') :
    writeRecord o.timestamp kind.fields ≠ none ∧
      d' = { d with written := d.written ++ [⟨o, kind⟩] } := by
  obtain ⟨bytes, hbytes, rfl⟩ := Option.map_eq_some_iff.mp h
  exact ⟨by simp [hbytes], rfl⟩

inductive Move (d : State) : Act → State → Prop
  | ready (shm cov : ℕ) (hphase : d.phase = .boot)
      (hwrite : writeRecord d.jiffies (readyFields shm cov) ≠ none) :
      Move d (.ready shm cov) { d with
        phase := .reading
        begun := d.begun + 1
        written := d.written ++ [⟨d.begin, .ready shm cov⟩] }
  | skip (bytes : List UInt8) (v : CliView) (hphase : d.phase = .reading)
      (hline : commandLine bytes = none) : Move d (.readline bytes v) d
  | begin (bytes : List UInt8) (v : CliView) (line : List Char) (hphase : d.phase = .reading)
      (hline : commandLine bytes = some line) :
      Move d (.readline bytes v) { d with
        phase := .busy ⟨bytes, line, v, d.begin, commandTicks v line⟩
        begun := d.begun + 1 }
  | tick (b : Busy) (hphase : d.phase = .busy b) (hticks : b.ticks ≠ 0) :
      Move d .tick { d with
        jiffies := d.jiffies + 1
        phase := .busy { b with ticks := b.ticks - 1 } }
  | eventBegin :
      Move d .eventBegin { d with begun := d.begun + 1, opened := d.opened ++ [d.begin] }
  | eventEnd (i : ℕ) (event : Event) (o : Opened) (hopen : d.opened[i]? = some o)
      (hwrite : writeRecord o.timestamp event.fields ≠ none) :
      Move d (.eventEnd i event) { d with
        opened := d.opened.eraseIdx i
        written := d.written ++ [⟨o, .event event⟩] }
  | close (a : Answers) (b : Busy) (fields : List Field) (hphase : d.phase = .busy b)
      (hticks : b.ticks = 0) (hfields : replyFields b.view a b.line = some fields)
      (hwrite : writeRecord b.reply.timestamp fields ≠ none) :
      Move d (.close a) { d with
        phase := if more b.view b.line then .reading else .ended
        written := d.written ++ [⟨b.reply, .reply b.bytes fields⟩] }

theorem State.step_cases (h : d.step e = some d') : Move d e d' := by
  unfold State.step at h
  split at h
  · rename_i hphase
    obtain ⟨hwrite, rfl⟩ := State.write_some h
    exact .ready _ _ hphase hwrite
  · rename_i hphase
    split at h
    · rename_i hline
      cases h
      exact .skip _ _ hphase hline
    · rename_i hline
      cases h
      exact .begin _ _ _ hphase hline
  · rename_i hphase
    split_ifs at h with hticks
    cases h
    exact .tick _ hphase hticks
  · cases h
    exact .eventBegin
  · split at h
    · cases h
    · rename_i hopen
      obtain ⟨hwrite, rfl⟩ := State.write_some h
      exact .eventEnd _ _ _ hopen hwrite
  · rename_i b hphase
    by_cases hticks : b.ticks ≠ 0
    · rw [if_pos hticks] at h
      cases h
    rw [if_neg hticks] at h
    split at h
    · cases h
    · rename_i hfields
      obtain ⟨hwrite, rfl⟩ := State.write_some h
      exact .close _ _ _ hphase (by simpa using hticks) hfields hwrite
  · cases h

theorem Event.fields_plain (e : Event) : PlainRecord e.fields := by
  have hkeys : ∀ key ∈ ["type", "dst_cpu", "span", "name", "task", "src_cpu", "check", "message"],
      PlainText key.toList := by decide
  have htypes : ∀ name ∈ ["load_balance", "migrate", "warn"], PlainText name.toList := by decide
  intro f hf
  rcases e with ⟨dstCpu, span, name⟩ | ⟨task, srcCpu, dstCpu⟩ | ⟨check, message⟩
  · simp only [Event.fields, List.mem_cons, List.not_mem_nil, or_false] at hf
    rcases hf with rfl | rfl | rfl | rfl
    · exact ⟨hkeys "type" (by simp), htypes "load_balance" (by simp)⟩
    · exact ⟨hkeys "dst_cpu" (by simp), trivial⟩
    · exact ⟨hkeys "span" (by simp), span.2⟩
    · exact ⟨hkeys "name" (by simp), name.2⟩
  · simp only [Event.fields, List.mem_cons, List.not_mem_nil, or_false] at hf
    rcases hf with rfl | rfl | rfl | rfl
    · exact ⟨hkeys "type" (by simp), htypes "migrate" (by simp)⟩
    · exact ⟨hkeys "task" (by simp), trivial⟩
    · exact ⟨hkeys "src_cpu" (by simp), trivial⟩
    · exact ⟨hkeys "dst_cpu" (by simp), trivial⟩
  · simp only [Event.fields, List.mem_cons, List.not_mem_nil, or_false] at hf
    rcases hf with rfl | rfl | rfl
    · exact ⟨hkeys "type" (by simp), htypes "warn" (by simp)⟩
    · exact ⟨hkeys "check" (by simp), check.2⟩
    · exact ⟨hkeys "message" (by simp), message.2⟩

def fourCpuAnswers : Answers :=
  ⟨fun _ => 0, 0, 0, true, false, Topology.fourCpuEnv,
    Topology.fourCpuMachine.boot Topology.fourCpuEnv⟩

def balanceEvent : Event := .loadBalance 1 ⟨"1-2".toList, by decide⟩ ⟨"MC".toList, by decide⟩

theorem fourCpu_topoSet (spec : List Char) :
    ∃ r, Topology.kstepTopoSet fourCpuAnswers.env fourCpuAnswers.topo spec = some r := by
  unfold Topology.kstepTopoSet
  split
  · exact ⟨_, rfl⟩
  · rename_i k _
    have hinit : ∃ p, Topology.topoInit fourCpuAnswers.env (Topology.testCpus k)
        fourCpuAnswers.topo.table fourCpuAnswers.topo.masks = some p := ⟨_, rfl⟩
    obtain ⟨⟨table, masks⟩, hinit⟩ := hinit
    simp only [hinit]
    split
    · exact ⟨_, rfl⟩
    · rename_i draft _
      obtain ⟨t, ht⟩ := Topology.topoApply_isSome_iff.mpr
        (⟨fun _ => rfl, rfl⟩ : Topology.CapsSettable fourCpuAnswers.env
          (Topology.draftTopo fourCpuAnswers.topo k table draft).testNcpus draft.caps)
      rw [ht]
      exact ⟨_, rfl⟩

/-- With these answers no command panics. -/
theorem exists_replyFields (v : CliView) (line : List Char) :
    ∃ fields, replyFields v fourCpuAnswers line = some fields := by
  unfold replyFields
  split
  · exact ⟨_, rfl⟩
  · rename_i c _
    cases c
    case cpuTopo spec _ =>
      obtain ⟨r, hr⟩ := fourCpu_topoSet spec
      simp only [replyCommand, hr]
      exact ⟨_, rfl⟩
    all_goals exact ⟨_, rfl⟩

end KStep.Driver
