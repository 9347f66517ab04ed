import KStep.Channel
import KStep.Driver
import KStep.Fuzz
import KStep.Lines

/-!
# A session of the host

`Session::cmd` writes a line and `read_reply` reads records until one has no `type`. The driver
reads the lines it is sent one after another, each cut to its buffer; hooks write their events in
between. The two streams are the only connection, and the steps of the two sides come in any order.
-/

namespace KStep.Driver

open FlatJson CString Runs Lines Trim

/-- What `serde_json` makes of an object. -/
abbrev Object := List Char → Option Value

structure Reply where
  reply : Object
  events : List Object

/-- `pending` are the events that `read_reply` has read so far, while a call is in progress, and
`output` the bytes the driver has written and the host has not read. A call that fails returns
`none`. -/
structure Session where
  driver : State
  nread : ℕ
  calls : ℕ
  pending : Option (List Object)
  output : List Char
  returned : List (Option Reply)

def Session.start (d : State) : Session := ⟨d, 0, 0, none, [], []⟩

inductive Label
  /-- the host's next call of `Session::cmd` writes its line -/
  | cmd
  /-- a step of the driver -/
  | driver (e : Act)
  /-- `read_reply` reads a line -/
  | recv

def Entry.bytes (x : Entry) : List Char := (writeRecord x.timestamp x.kind.fields).getD []

/-- `BufRead::read_line`: the line with its newline, and what is left. -/
def readLine (s : List Char) : Option (List Char × List Char) :=
  match s.dropWhile (· != '\n') with
  | [] => none
  | c :: rest => some (s.takeWhile (· != '\n') ++ [c], rest)

variable (parse : List Char → Option Object) (prog : List (List UInt8))

def Session.receive (s : Session) (events : List Object) (line rest : List Char) : Session :=
  match parse (Fuzz.trim line) with
  | none => { s with pending := none, output := rest, returned := s.returned ++ [none] }
  | some v =>
      if (v "type".toList).isSome then { s with pending := some (events ++ [v]), output := rest }
      else { s with
        pending := none
        output := rest
        returned := s.returned ++ [some ⟨v, events⟩] }

/-- A step of the session in which the lines of `prog` are passed to `Session::cmd`. The driver's
reads return the lines of the stream in order. -/
def Session.step (s : Session) (e : Label) : Option Session :=
  match e with
  | .cmd =>
      if s.pending.isNone ∧ s.calls < prog.length then
        some { s with calls := s.calls + 1, pending := some [] }
      else none
  | .driver (.readline bytes v) =>
      if (lines Channel.newline (unlines Channel.newline (prog.take s.calls)))[s.nread]? =
          some bytes then
        (s.driver.step (.readline bytes v)).map fun d =>
          { s with driver := d, nread := s.nread + 1 }
      else none
  | .driver e => (s.driver.step e).map fun d => { s with
      driver := d
      output := s.output ++ (d.written.drop s.driver.written.length).flatMap Entry.bytes }
  | .recv => match s.pending, readLine s.output with
    | some events, some (line, rest) => some (s.receive parse events line rest)
    | some _, none => match s.driver.phase with
      -- the channel is closed
      | .ended => some { s with pending := none, returned := s.returned ++ [none] }
      | _ => none
    | none, _ => none

def answered (ws : List Entry) : List (List UInt8) :=
  ws.filterMap fun x => match x.kind with
    | .reply bytes _ => some bytes
    | _ => none

def eventObjects (ws : List Entry) : List Object :=
  (ws.filter (!·.kind.isReply)).map fun x => toMap x.record

def returnedEvents : Option Reply → List Object
  | none => []
  | some r => r.events

/-- What a JSON parser makes of the driver's records: flat and without escapes, with numbers that
fit a `u64` or an `i64`. -/
def ReadsRecords (parse : List Char → Option Object) : Prop :=
  ∀ r, PlainRecord r → BoundedRecord r → parse (text r) = some (toMap r)

/-- The numbers of the records written fit a `u64` or an `i64`, as the driver's own types do. -/
def State.Bounded (d : State) : Prop := ∀ x ∈ d.written, BoundedRecord x.record

instance : DecidablePred State.Bounded := fun d =>
  inferInstanceAs (Decidable (∀ x ∈ d.written, BoundedRecord x.record))

/-- Lines that `Session::cmd` can be given: one line each, within the driver's buffer, not blank or
a comment, and `exit` at the end only. -/
structure ValidLines (prog : List (List UInt8)) : Prop where
  line : ∀ w ∈ prog, Channel.newline ∉ w
  short : ∀ w ∈ prog, w.length < lineMax
  nonblank : ∀ w ∈ prog, strim (cString w) ≠ []
  command : ∀ w ∈ prog, (strim (cString w)).head? ≠ some '#'
  exit : ∀ w ∈ prog.dropLast, (strsep Cli.isBlank (strim (cString w))).1 ≠ "exit".toList

variable {parse prog} {x : Entry} {r : Record} {s t : Session}

theorem ValidLines.commandLine (h : ValidLines prog) {w : List UInt8} (hw : w ∈ prog) :
    commandLine w = some (strim (cString w)) := by
  have htake : w.take (lineMax - 1) = w :=
    List.take_of_length_le (Nat.le_sub_one_of_lt (h.short w hw))
  have hblank := h.nonblank w hw
  have hcomment := h.command w hw
  rw [Driver.commandLine, htake]
  split
  · rename_i heq
    exact absurd heq hblank
  · rename_i heq
    rw [heq] at hcomment
    exact absurd rfl hcomment
  · rfl

/-- Only the last line ends the session. -/
theorem ValidLines.more (h : ValidLines prog) {w : List UInt8} {k : ℕ} (v : Cli.CliView)
    (hk : prog[k]? = some w) (hlast : k + 1 < prog.length) :
    more v (strim (cString w)) = true := by
  have hmem : w ∈ prog.dropLast := by
    refine List.mem_of_getElem? (i := k) ?_
    rw [List.getElem?_dropLast, if_pos (by omega), hk]
  have hverb := h.exit w hmem
  rw [Driver.more, decide_eq_true_eq]
  intro hexit
  unfold Cli.execute at hexit
  split at hexit
  rename_i verb rest hsep
  rw [hsep] at hverb
  split at hexit
  · rename_i hcmd
    obtain ⟨name, hname, -⟩ := Cli.commands_verb hcmd hexit
    cases hname
  · simp only [bind, Except.bind] at hexit
    split at hexit
    · cases hexit
    · cases hexit
  · rw [if_neg hverb] at hexit
    cases hexit

theorem trim_text (r : Record) : Fuzz.trim (text r ++ ['\n']) = text r := by
  have hnewline : ∀ c ∈ ['\n'], Fuzz.isWhitespace c = true := by
    rintro c ⟨⟩
    · decide
    · contradiction
  rw [Fuzz.trim, trimBy_append_pos hnewline, text, trimBy_cons (by decide),
    List.rdropWhile_concat_neg _ _ _ (by decide)]

theorem readLine_text (h : PlainRecord r) (rest : List Char) :
    readLine (text r ++ ['\n'] ++ rest) = some (text r ++ ['\n'], rest) := by
  have hne (c : Char) (hc : c ∈ text r) : (c != '\n') = true := by
    rw [bne_iff_ne]
    rintro rfl
    exact absurd (text_printable h hc) (by decide)
  rw [readLine, List.append_assoc, List.dropWhile_append_of_pos hne,
    List.takeWhile_append_of_pos hne]
  simp

def BuiltFor (w : List UInt8) (fields : List Field) : Prop :=
  ∃ v a line, commandLine w = some line ∧ replyFields v a line = some fields

/-- A record as it travels: one line of plain JSON, with a type unless it is a reply. -/
structure Entry.Sent (x : Entry) : Prop where
  plain : PlainRecord x.record
  bytes : x.bytes = text x.record ++ ['\n']
  typed : (toMap x.record "type".toList).isSome = !x.kind.isReply
  built : ∀ w fields, x.kind = .reply w fields → BuiltFor w fields

theorem BuiltFor.replyFields {w : List UInt8} {fields : List Field} (h : BuiltFor w fields) :
    ReplyFields fields := by
  obtain ⟨v, a, line, -, hfields⟩ := h
  exact replyFields_ok hfields

theorem Entry.bytes_eq (h : writeRecord x.timestamp x.kind.fields ≠ none) :
    x.bytes = text x.record ++ ['\n'] := by
  rw [writeRecord_eq, jsonAppendBuf] at h
  rw [Entry.bytes, writeRecord_eq, jsonAppendBuf]
  split_ifs at h ⊢ with hfull
  · exact absurd rfl h
  · rfl

theorem plain_record (h : PlainRecord x.kind.fields) : PlainRecord x.record := by
  intro f hf
  rcases List.mem_cons.mp hf with rfl | hf
  · have hkey : PlainText "timestamp".toList := by decide
    exact ⟨hkey, trivial⟩
  · exact h f hf

theorem sent_event {o : Opened} {event : Event}
    (h : writeRecord o.timestamp event.fields ≠ none) : Entry.Sent ⟨o, .event event⟩ where
  plain := plain_record event.fields_plain
  bytes := Entry.bytes_eq h
  typed := by
    have htype : ∃ name, typeField name ∈ event.fields := by
      rcases event with _ | _ | _
      · exact ⟨"load_balance", List.mem_cons_self⟩
      · exact ⟨"migrate", List.mem_cons_self⟩
      · exact ⟨"warn", List.mem_cons_self⟩
    obtain ⟨name, hname⟩ := htype
    exact isSome_toMap.mpr ⟨_, List.mem_cons_of_mem _ hname, rfl⟩
  built w fields hkind := by cases hkind

theorem sent_reply {o : Opened} {w : List UInt8} {fields : List Field}
    (h : writeRecord o.timestamp fields ≠ none) (hbuilt : BuiltFor w fields) :
    Entry.Sent ⟨o, .reply w fields⟩ where
  plain := plain_record hbuilt.replyFields.plain
  bytes := Entry.bytes_eq h
  typed := by
    rw [Kind.isReply, Bool.not_true, ← Bool.not_eq_true, isSome_toMap]
    rintro ⟨f, hmem, hkey⟩
    rcases List.mem_cons.mp hmem with rfl | hmem
    · have hne : "timestamp".toList ≠ "type".toList := by decide
      exact hne hkey
    · exact hbuilt.replyFields.untyped f hmem hkey
  built w' fields' hkind := by
    cases hkind
    exact hbuilt

theorem State.written_prefix {d d' : State} {e : Act} (h : d.step e = some d') :
    d.written <+: d'.written := by
  cases State.step_cases h with
  | ready => exact List.prefix_append _ _
  | skip => exact List.prefix_rfl
  | begin => exact List.prefix_rfl
  | tick => exact List.prefix_rfl
  | eventBegin => exact List.prefix_rfl
  | eventEnd => exact List.prefix_append _ _
  | close => exact List.prefix_append _ _

theorem Session.receive_driver (parse : List Char → Option Object) (s : Session)
    (events : List Object) (line rest : List Char) :
    (s.receive parse events line rest).driver = s.driver := by
  unfold Session.receive
  split
  · rfl
  · split_ifs <;> rfl

theorem Session.written_prefix {e : Label} (h : s.step parse prog e = some t) :
    s.driver.written <+: t.driver.written := by
  unfold Session.step at h
  split at h
  · split_ifs at h
    cases h
    exact List.prefix_rfl
  · split_ifs at h
    obtain ⟨d, hd, rfl⟩ := Option.map_eq_some_iff.mp h
    exact State.written_prefix hd
  · obtain ⟨d, hd, rfl⟩ := Option.map_eq_some_iff.mp h
    exact State.written_prefix hd
  · split at h
    · cases h
      rw [Session.receive_driver]
    · split at h
      · cases h
        exact List.prefix_rfl
      · cases h
    · cases h

/-- No step unbounds what is written. -/
theorem Session.bounded_of_step {e : Label} (h : s.step parse prog e = some t)
    (ht : t.driver.Bounded) : s.driver.Bounded :=
  fun x hx => ht x ((Session.written_prefix h).subset hx)

/-- A reply of a 64-bit clock. -/
theorem bounded_reply {o : Opened} {w : List UInt8} {fields : List Field}
    (hfields : ReplyFields fields) (ho : o.timestamp < 2 ^ 64) :
    BoundedRecord (Entry.record ⟨o, .reply w fields⟩) := by
  intro f hf
  rcases List.mem_cons.mp hf with rfl | hf
  · exact ⟨by omega, by exact_mod_cast ho⟩
  · exact hfields.bounded f hf

end KStep.Driver
