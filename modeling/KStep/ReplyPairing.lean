import KStep.HostSession

/-!
# Replies pair with commands

At every moment the records written are those the host has read and those still in the stream. The
driver has answered the lines it has read, in order and each once, except the one it is executing;
the calls have returned the replies read so far with the events before them.
-/

namespace KStep.Driver

open FlatJson CString Runs Lines

def inHand : Phase → List (List UInt8)
  | .busy b => [b.bytes]
  | _ => []

/-- The `k`-th call returned the reply to its line, and the calls up to it the events written before
that reply. -/
def PairedCall (prog : List (List UInt8)) (written : List Entry) (returned : List (Option Reply))
    (k : ℕ) (r : Option Reply) : Prop :=
  ∃ pre o w fields post events, written = pre ++ ⟨o, .reply w fields⟩ :: post ∧
    (answered pre).length = k ∧ prog[k]? = some w ∧
    r = some ⟨toMap (timestampField o.timestamp :: fields), events⟩ ∧
    (returned.take (k + 1)).flatMap returnedEvents = eventObjects pre

/-- Between steps: `done` are the records the host has read, `todo` those in the stream. -/
structure Paired (prog : List (List UInt8)) (s : Session) (done todo : List Entry) : Prop where
  written : s.driver.written = done ++ todo
  output : s.output = todo.flatMap Entry.bytes
  sent : ∀ x ∈ s.driver.written, x.Sent
  calls : s.calls = s.returned.length + if s.pending.isSome then 1 else 0
  bound : s.calls ≤ prog.length
  nread : s.nread ≤ s.calls
  replies : (answered done).length = s.returned.length
  lines : answered s.driver.written ++ inHand s.driver.phase = prog.take s.nread
  boot : s.driver.phase ≠ .boot
  ended : s.driver.phase = .ended → s.nread = prog.length
  busy : ∀ b, s.driver.phase = .busy b →
    commandLine b.bytes = some b.line ∧ b.reply.timestamp ≤ s.driver.jiffies
  events : s.returned.flatMap returnedEvents ++ s.pending.getD [] = eventObjects done
  paired : ∀ k r, s.returned[k]? = some r →
    PairedCall prog s.driver.written s.returned k r

variable {parse : List Char → Option Object} {prog : List (List UInt8)} {s t : Session}
  {done todo : List Entry} {x : Entry} {d : State}

theorem answered_append (ws zs : List Entry) :
    answered (ws ++ zs) = answered ws ++ answered zs := List.filterMap_append

theorem answered_event (h : x.kind.isReply = false) : answered [x] = [] := by
  rcases hkind : x.kind with ⟨shm, cov⟩ | e | ⟨w, fields⟩
  · simp [answered, hkind]
  · simp [answered, hkind]
  · rw [hkind] at h
    cases h

theorem exists_of_isReply (h : x.kind.isReply = true) : ∃ w fields, x.kind = .reply w fields := by
  rcases hkind : x.kind with ⟨shm, cov⟩ | e | ⟨w, fields⟩
  · rw [hkind] at h
    cases h
  · rw [hkind] at h
    cases h
  · exact ⟨w, fields, rfl⟩

theorem eventObjects_append (ws zs : List Entry) :
    eventObjects (ws ++ zs) = eventObjects ws ++ eventObjects zs := by
  rw [eventObjects, List.filter_append, List.map_append]
  rfl

theorem PairedCall.written_append {written : List Entry} {returned : List (Option Reply)} {k : ℕ}
    {r : Option Reply} (h : PairedCall prog written returned k r) (zs : List Entry) :
    PairedCall prog (written ++ zs) returned k r := by
  obtain ⟨pre, o, w, fields, post, events, rfl, hrest⟩ := h
  refine ⟨pre, o, w, fields, post ++ zs, events, ?_, hrest⟩
  rw [List.append_assoc, List.cons_append]

theorem PairedCall.returned_concat {written : List Entry} {returned : List (Option Reply)} {k : ℕ}
    {r r' : Option Reply} (h : PairedCall prog written returned k r) (hk : k < returned.length) :
    PairedCall prog written (returned ++ [r']) k r := by
  obtain ⟨pre, o, w, fields, post, events, hwritten, hlen, hprog, hr, hevents⟩ := h
  refine ⟨pre, o, w, fields, post, events, hwritten, hlen, hprog, hr, ?_⟩
  rw [List.take_append_of_le_length hk]
  exact hevents

theorem paired_start (hphase : d.phase = .reading) (hwritten : d.written = []) :
    Paired prog (Session.start d) [] [] where
  written := hwritten
  output := rfl
  sent x hx := by
    rw [Session.start, hwritten] at hx
    cases hx
  calls := rfl
  bound := Nat.zero_le _
  nread := le_rfl
  replies := rfl
  lines := by simp [Session.start, hwritten, hphase, answered, inHand]
  boot := by simp [Session.start, hphase]
  ended h := by simp [Session.start, hphase] at h
  busy b h := by simp [Session.start, hphase] at h
  events := rfl
  paired k r h := by simp [Session.start] at h

/-- The lines the host has sent are the first ones of the program. -/
theorem sentLine_iff (hprog : ValidLines prog) {n k : ℕ} {bytes : List UInt8} :
    (lines Channel.newline (unlines Channel.newline (prog.take n)))[k]? = some bytes ↔
      k < n ∧ prog[k]? = some bytes := by
  rw [lines_unlines fun w hw => hprog.line w (List.mem_of_mem_take hw), List.getElem?_take]
  split_ifs with hlt
  · exact (and_iff_right hlt).symm
  · exact iff_of_false (by simp) fun h => hlt h.1

namespace Paired

theorem cmd (h : Paired prog s done todo) (hpending : s.pending = none)
    (hcalls : s.calls < prog.length) :
    Paired prog { s with calls := s.calls + 1, pending := some [] } done todo := by
  have hcount := h.calls
  have hevents := h.events
  rw [hpending] at hcount hevents
  refine ⟨h.written, h.output, h.sent, ?_, hcalls, h.nread.trans (Nat.le_succ _), h.replies,
    h.lines, h.boot, h.ended, h.busy, hevents, h.paired⟩
  rw [hcount]
  rfl

theorem readline (h : Paired prog s done todo) (hprog : ValidLines prog) {bytes : List UInt8}
    {v : Cli.CliView} (hbytes : (Lines.lines Channel.newline
      (unlines Channel.newline (prog.take s.calls)))[s.nread]? = some bytes)
    (hmove : Move s.driver (.readline bytes v) d) :
    Paired prog { s with driver := d, nread := s.nread + 1 } done todo := by
  obtain ⟨hlt, hnext⟩ := (sentLine_iff hprog).mp hbytes
  have hline := hprog.commandLine (List.mem_of_getElem? hnext)
  cases hmove with
  | skip _ _ hphase hskip => exact absurd (hskip.symm.trans hline) (by simp)
  | begin _ _ line hphase hbegin =>
      refine ⟨h.written, h.output, h.sent, h.calls, h.bound, hlt, h.replies, ?_, by simp,
        fun hended => (by cases hended), ?_, h.events, h.paired⟩
      · have hlines := h.lines
        have hidle : inHand s.driver.phase = [] := by
          rw [hphase]
          rfl
        rw [hidle, List.append_nil] at hlines
        rw [hlines, List.take_add_one, hnext]
        rfl
      · intro b hb
        cases hb
        exact ⟨hbegin, le_rfl⟩

/-- The driver writes one more record. -/
theorem write (h : Paired prog s done todo) (hwritten : d.written = s.driver.written ++ [x])
    (hsent : x.Sent) (hjiffies : s.driver.jiffies = d.jiffies)
    (hlines : answered [x] ++ inHand d.phase = inHand s.driver.phase) (hboot : d.phase ≠ .boot)
    (hended : d.phase = .ended → s.nread = prog.length)
    (hbusy : ∀ b, d.phase = .busy b → s.driver.phase = .busy b) :
    Paired prog { s with
      driver := d
      output := s.output ++ (d.written.drop s.driver.written.length).flatMap Entry.bytes }
      done (todo ++ [x]) := by
  have hdrop : d.written.drop s.driver.written.length = [x] := by
    rw [hwritten, List.drop_left]
  refine ⟨?_, ?_, ?_, h.calls, h.bound, h.nread, h.replies, ?_, hboot, hended, ?_, h.events, ?_⟩
  · rw [hwritten, h.written, List.append_assoc]
  · rw [hdrop, List.flatMap_append, ← h.output]
  · intro y hy
    rw [hwritten] at hy
    rcases List.mem_append.mp hy with hy | hy
    · exact h.sent y hy
    · rw [List.mem_singleton.mp hy]
      exact hsent
  · rw [hwritten, answered_append, List.append_assoc, hlines]
    exact h.lines
  · intro b hb
    rw [← hjiffies]
    exact h.busy b (hbusy b hb)
  · intro k r hr
    rw [hwritten]
    exact (h.paired k r hr).written_append [x]

/-- A step of the driver that writes nothing. -/
theorem silent (h : Paired prog s done todo) (hwritten : d.written = s.driver.written)
    (hjiffies : s.driver.jiffies ≤ d.jiffies) (hlines : inHand d.phase = inHand s.driver.phase)
    (hboot : d.phase ≠ .boot) (hended : d.phase = .ended → s.driver.phase = .ended)
    (hbusy : ∀ b, d.phase = .busy b → ∃ b', s.driver.phase = .busy b' ∧ b.bytes = b'.bytes ∧
      b.line = b'.line ∧ b.reply = b'.reply) :
    Paired prog { s with
      driver := d
      output := s.output ++ (d.written.drop s.driver.written.length).flatMap Entry.bytes }
      done todo := by
  refine ⟨?_, ?_, ?_, h.calls, h.bound, h.nread, h.replies, ?_, hboot,
    fun hd => h.ended (hended hd), ?_, h.events, ?_⟩
  · rw [hwritten]
    exact h.written
  · rw [hwritten, List.drop_length, List.flatMap_nil, List.append_nil]
    exact h.output
  · rw [hwritten]
    exact h.sent
  · rw [hwritten, hlines]
    exact h.lines
  · intro b hb
    obtain ⟨b', hb', hbytes, hline, hreply⟩ := hbusy b hb
    obtain ⟨hcommand, htime⟩ := h.busy b' hb'
    rw [hbytes, hline, hreply]
    exact ⟨hcommand, htime.trans hjiffies⟩
  · rw [hwritten]
    exact h.paired

theorem getElem?_of_take {α : Type} {l : List α} {n i : ℕ} {a : α} (h : (l.take n)[i]? = some a) :
    l[i]? = some a := by
  rw [List.getElem?_take] at h
  split_ifs at h
  exact h

/-- The line in hand is the one after those answered. -/
theorem busy_line (h : Paired prog s done todo) {b : Busy} (hphase : s.driver.phase = .busy b) :
    prog[(answered s.driver.written).length]? = some b.bytes ∧
      (answered s.driver.written).length + 1 = s.nread := by
  have hlines := h.lines
  rw [hphase] at hlines
  constructor
  · refine getElem?_of_take (n := s.nread) ?_
    rw [← hlines]
    simp [inHand]
  · have hlen := congrArg List.length hlines
    rwa [List.length_append, inHand, List.length_singleton, List.length_take,
      Nat.min_eq_left (h.nread.trans h.bound)] at hlen

/-- A reply that the host has not read is for the line whose call waits. -/
theorem reply_line {w : List UInt8} {fields : List Field} (h : Paired prog s done (x :: todo))
    (hkind : x.kind = .reply w fields) : prog[s.returned.length]? = some w := by
  have hlines := h.lines
  have hanswered : answered [x] = [w] := by simp [answered, hkind]
  rw [h.written, ← List.singleton_append, answered_append, answered_append, hanswered,
    List.append_assoc, List.append_assoc] at hlines
  refine getElem?_of_take (n := s.nread) ?_
  rw [← hlines, ← h.replies]
  simp

theorem driver (h : Paired prog s done todo) (hprog : ValidLines prog) {e : Act}
    (hmove : Move s.driver e d) (he : ∀ bytes v, e ≠ .readline bytes v) :
    ∃ todo', Paired prog { s with
      driver := d
      output := s.output ++ (d.written.drop s.driver.written.length).flatMap Entry.bytes }
      done todo' := by
  cases hmove with
  | ready shm cov hphase hwrite => exact absurd hphase h.boot
  | skip bytes v hphase hline => exact absurd rfl (he bytes v)
  | begin bytes v line hphase hline => exact absurd rfl (he bytes v)
  | tick b hphase hticks =>
      refine ⟨todo, h.silent rfl (Nat.le_succ _) (by rw [hphase]; rfl) (by simp)
        (fun hd => by cases hd) fun b' hb => ?_⟩
      cases hb
      exact ⟨b, hphase, rfl, rfl, rfl⟩
  | eventBegin =>
      exact ⟨todo, h.silent rfl le_rfl rfl h.boot id fun b hb => ⟨b, hb, rfl, rfl, rfl⟩⟩
  | eventEnd i event o hopen hwrite =>
      exact ⟨_, h.write rfl (sent_event hwrite) rfl rfl h.boot h.ended fun b hb => hb⟩
  | close a b fields hphase hticks hfields hwrite =>
      have hbuilt : BuiltFor b.bytes fields := ⟨b.view, a, b.line, (h.busy b hphase).1, hfields⟩
      refine ⟨_, h.write rfl (sent_reply hwrite hbuilt) rfl ?_ ?_ ?_ ?_⟩
      · rw [hphase]
        dsimp only
        split_ifs <;> rfl
      · dsimp only
        split_ifs <;> simp
      · intro hended
        dsimp only at hended
        split_ifs at hended with hmore
        by_contra hne
        have hnread := h.nread.trans h.bound
        obtain ⟨hget, hlen⟩ := h.busy_line hphase
        have hline := (h.busy b hphase).1
        rw [hprog.commandLine (List.mem_of_getElem? hget)] at hline
        rw [← Option.some.inj hline, hprog.more b.view hget (by omega)] at hmore
        exact hmore rfl
      · intro b' hb'
        dsimp only at hb'
        split_ifs at hb'

/-- The host reads the next record of the stream. -/
theorem receive (h : Paired prog s done (x :: todo))
    (hparse : ReadsRecords parse) (hbounded : s.driver.Bounded) {events : List Object}
    (hpending : s.pending = some events) :
    ∃ line rest, readLine s.output = some (line, rest) ∧
      Paired prog (s.receive parse events line rest) (done ++ [x]) todo := by
  have hmem : x ∈ s.driver.written := by
    rw [h.written]
    simp
  have hx : x.Sent := h.sent x hmem
  have hread : readLine s.output = some (text x.record ++ ['\n'], todo.flatMap Entry.bytes) := by
    rw [h.output, List.flatMap_cons, hx.bytes, readLine_text hx.plain]
  refine ⟨_, _, hread, ?_⟩
  have hwritten : s.driver.written = done ++ [x] ++ todo := by
    rw [h.written, List.append_assoc, List.singleton_append]
  have hcalls := h.calls
  have hevents := h.events
  rw [hpending] at hcalls hevents
  have hreplies := h.replies
  simp only [Session.receive, trim_text, hparse _ hx.plain (hbounded x hmem), hx.typed]
  rcases hreply : x.kind.isReply with _ | _
  · simp only [Bool.not_false, if_true]
    have hobjects : eventObjects [x] = [toMap x.record] := by simp [eventObjects, hreply]
    refine ⟨hwritten, rfl, h.sent, hcalls, h.bound, h.nread, ?_, h.lines, h.boot, h.ended, h.busy,
      ?_, h.paired⟩
    · rw [answered_append, answered_event hreply, List.append_nil]
      exact hreplies
    · rw [eventObjects_append, hobjects, ← hevents]
      simp
  · obtain ⟨w, fields, hkind⟩ := exists_of_isReply hreply
    have hx' : x = ⟨x.toOpened, .reply w fields⟩ := by rw [← hkind]
    have hanswered : answered [x] = [w] := by simp [answered, hkind]
    have hobjects : eventObjects [x] = [] := by simp [eventObjects, hreply]
    simp only [Bool.not_true, Bool.false_eq_true, if_false]
    refine ⟨hwritten, rfl, h.sent, ?_, h.bound, h.nread, ?_, h.lines, h.boot, h.ended, h.busy,
      ?_, fun k r hr => ?_⟩
    · simpa using hcalls
    · rw [answered_append, hanswered, List.length_append, hreplies, List.length_append]
      rfl
    · rw [eventObjects_append, hobjects, ← hevents]
      simp [returnedEvents]
    · rcases lt_or_ge k s.returned.length with hk | hk
      · rw [List.getElem?_append_left hk] at hr
        exact (h.paired k r hr).returned_concat hk
      · have hlt := (List.getElem?_eq_some_iff.mp hr).1
        rw [List.length_append, List.length_singleton] at hlt
        obtain rfl : k = s.returned.length := by omega
        rw [List.getElem?_concat_length] at hr
        refine ⟨done, x.toOpened, w, fields, todo, events, ?_, hreplies, h.reply_line hkind, ?_,
          ?_⟩
        · rw [← hx']
          exact h.written
        · rw [← Option.some.inj hr, Entry.record, hkind]
          rfl
        · rw [List.take_of_length_le (by simp), List.flatMap_append, ← hevents]
          simp [returnedEvents]

end Paired

/-- Once the session has ended, the last reply is still to be read or no call waits for one. -/
theorem not_paired_ended {events : List Object} (hpending : s.pending = some events)
    (hread : readLine s.output = none) (hended : s.driver.phase = .ended) :
    ¬Paired prog s done todo := by
  intro h
  have htodo : todo = [] := by
    rcases todo with _ | ⟨x, todo⟩
    · rfl
    · have hx : x.Sent := h.sent x (by rw [h.written]; simp)
      rw [h.output, List.flatMap_cons, hx.bytes, readLine_text hx.plain] at hread
      cases hread
  have hcalls := h.calls
  have hlines := congrArg List.length h.lines
  have hwritten := h.written
  have hbound := h.bound
  have hreplies := h.replies
  rw [htodo, List.append_nil] at hwritten
  rw [hpending, Option.isSome_some, if_pos rfl] at hcalls
  have hidle : inHand s.driver.phase = [] := by
    rw [hended]
    rfl
  rw [hidle, List.append_nil, hwritten, hreplies, h.ended hended, List.take_length] at hlines
  omega

theorem step_paired (hparse : ReadsRecords parse) (hprog : ValidLines prog)
    (hbounded : s.driver.Bounded) (h : Paired prog s done todo) {e : Label}
    (hstep : s.step parse prog e = some t) : ∃ done' todo', Paired prog t done' todo' := by
  unfold Session.step at hstep
  split at hstep
  · split_ifs at hstep with hcall
    cases hstep
    exact ⟨done, todo, h.cmd (Option.isNone_iff_eq_none.mp hcall.1) hcall.2⟩
  · split_ifs at hstep with hbytes
    obtain ⟨d, hd, rfl⟩ := Option.map_eq_some_iff.mp hstep
    exact ⟨done, todo, h.readline hprog hbytes (State.step_cases hd)⟩
  · rename_i e he
    obtain ⟨d, hd, rfl⟩ := Option.map_eq_some_iff.mp hstep
    obtain ⟨todo', h'⟩ := h.driver hprog (State.step_cases hd) he
    exact ⟨done, todo', h'⟩
  · split at hstep
    · rename_i events line rest hpending hread
      cases hstep
      rcases todo with _ | ⟨x, todo⟩
      · rw [h.output] at hread
        cases hread
      · obtain ⟨line', rest', hread', h'⟩ := h.receive hparse hbounded hpending
        cases hread.symm.trans hread'
        exact ⟨_, todo, h'⟩
    · rename_i events hpending hread
      split at hstep
      · rename_i hended
        exact absurd h (not_paired_ended hpending hread hended)
      · cases hstep
    · cases hstep

theorem run_paired (hparse : ReadsRecords parse) (hprog : ValidLines prog)
    (h : run (Session.step parse prog) s l = some t)
    (hbounded : t.driver.Bounded) (hs : Paired prog s done todo) :
    ∃ done todo, Paired prog t done todo := by
  refine run_invariant_of_end (I := fun s => ∃ done todo, Paired prog s done todo)
    (fun s e t => Session.bounded_of_step) ?_ h hbounded ⟨done, todo, hs⟩
  rintro s e t hstep hbounded ⟨done, todo, hs⟩
  exact step_paired hparse hprog hbounded hs hstep

/-- A record read leaves the call waiting or ends it. -/
theorem receive_cases (parse : List Char → Option Object) (s : Session) (events : List Object)
    (line rest : List Char) :
    (s.receive parse events line rest).pending ≠ none ∧
        (s.receive parse events line rest).returned = s.returned ∨
      (s.receive parse events line rest).returned.length = s.returned.length + 1 := by
  unfold Session.receive
  split
  · exact Or.inr List.length_append
  · split_ifs
    · exact Or.inl ⟨by simp, rfl⟩
    · exact Or.inr List.length_append

/-- A call whose reply has been written returns: no step of the driver is needed. -/
theorem exists_recv (hparse : ReadsRecords parse) (hbounded : s.driver.Bounded)
    (h : Paired prog s done todo) (hpending : s.pending ≠ none)
    (hreply : s.returned.length < (answered s.driver.written).length) :
    ∃ l t, (∀ e ∈ l, e = .recv) ∧ run (Session.step parse prog) s l = some t ∧
      t.returned.length = s.returned.length + 1 := by
  induction todo generalizing s done with
  | nil =>
      have hwritten := h.written
      have hreplies := h.replies
      rw [List.append_nil] at hwritten
      rw [hwritten, hreplies] at hreply
      exact absurd hreply (lt_irrefl _)
  | cons x todo ih =>
      obtain ⟨events, hevents⟩ := Option.ne_none_iff_exists'.mp hpending
      obtain ⟨line, rest, hread, h'⟩ := h.receive hparse hbounded hevents
      have hstep : s.step parse prog .recv = some (s.receive parse events line rest) := by
        simp only [Session.step, hevents, hread]
      have hdriver := Session.receive_driver parse s events line rest
      obtain ⟨hmore, hreturned⟩ | hcount := receive_cases parse s events line rest
      · obtain ⟨l, t, hl, hrun, hcount⟩ := ih (hdriver ▸ hbounded) h' hmore
          (by rw [hdriver, hreturned]; exact hreply)
        refine ⟨.recv :: l, t, by simpa using hl, ?_, ?_⟩
        · simp only [run, hstep]
          exact hrun
        · rw [hcount, hreturned]
      · refine ⟨[.recv], s.receive parse events line rest, by simp, ?_, hcount⟩
        simp only [run, hstep]

/-- The driver can do the ticks of its command and close the reply. -/
theorem exists_close (parse : List Char → Option Object) (prog : List (List UInt8)) {b : Busy}
    {a : Answers} {fields : List Field} (hphase : s.driver.phase = .busy b)
    (hfields : replyFields b.view a b.line = some fields)
    (hwrite : writeRecord b.reply.timestamp fields ≠ none) :
    ∃ l t, run (Session.step parse prog) s l = some t ∧ t.pending = s.pending ∧
      t.returned = s.returned ∧
      t.driver.written = s.driver.written ++ [⟨b.reply, .reply b.bytes fields⟩] := by
  obtain ⟨bytes, hbytes⟩ := Option.ne_none_iff_exists'.mp hwrite
  generalize hn : b.ticks = n
  induction n generalizing s b with
  | zero =>
      let d : State := { s.driver with
        phase := if more b.view b.line then .reading else .ended
        written := s.driver.written ++ [⟨b.reply, .reply b.bytes fields⟩] }
      have hclose : s.driver.step (.close a) = some d := by
        simp [State.step, hphase, hn, hfields, State.write, Kind.fields, hbytes, d]
      refine ⟨[.driver (.close a)], { s with
        driver := d
        output := s.output ++ (d.written.drop s.driver.written.length).flatMap Entry.bytes },
        ?_, rfl, rfl, rfl⟩
      simp only [run, Session.step, hclose, Option.map_some]
  | succ n ih =>
      have htick : s.driver.step .tick = some { s.driver with
          jiffies := s.driver.jiffies + 1
          phase := .busy { b with ticks := b.ticks - 1 } } := by
        simp [State.step, hphase, hn]
      obtain ⟨l, t, hrun, hpending, hreturned, hanswered⟩ := ih
        (s := { s with
          driver := { s.driver with
            jiffies := s.driver.jiffies + 1
            phase := .busy { b with ticks := b.ticks - 1 } }
          output := s.output ++ (s.driver.written.drop s.driver.written.length).flatMap
            Entry.bytes })
        (b := { b with ticks := b.ticks - 1 }) rfl hfields hwrite hbytes (by simp [hn])
      refine ⟨.driver .tick :: l, t, ?_, hpending, hreturned, hanswered⟩
      simp only [run, Session.step, htick, Option.map_some]
      exact hrun

/-- A call returns after any run that has written its reply. -/
theorem exists_return_of_run (hparse : ReadsRecords parse) (hprog : ValidLines prog)
    (h : Paired prog s done todo) {l : List Label}
    (hrun : run (Session.step parse prog) s l = some t) (hbounded : t.driver.Bounded)
    (hpending : t.pending ≠ none) (hreturned : t.returned = s.returned)
    (hreply : s.returned.length < (answered t.driver.written).length) :
    ∃ l t, run (Session.step parse prog) s l = some t ∧
      t.returned.length = s.returned.length + 1 := by
  obtain ⟨done', todo', ht⟩ := run_paired hparse hprog hrun hbounded h
  obtain ⟨l', u, -, hrun', hcount⟩ :=
    exists_recv hparse hbounded ht hpending (hreturned ▸ hreply)
  refine ⟨l ++ l', u, ?_, by rw [hcount, hreturned]⟩
  rw [run_append hrun]
  exact hrun'

theorem exists_return_of_busy (hparse : ReadsRecords parse) (hprog : ValidLines prog)
    (hbounded : s.driver.Bounded) (h : Paired prog s done todo) (hpending : s.pending ≠ none)
    {b : Busy} (hphase : s.driver.phase = .busy b)
    (hjiffies : s.driver.jiffies < 2 ^ 64)
    (hanswered : s.returned.length ≤ (answered s.driver.written).length) :
    ∃ l t, run (Session.step parse prog) s l = some t ∧
      t.returned.length = s.returned.length + 1 := by
  obtain ⟨fields, hfields⟩ := exists_replyFields b.view b.line
  have htime := (h.busy b hphase).2.trans_lt hjiffies
  have hwrite := writeRecord_reply (replyFields_ok hfields) htime
  obtain ⟨l, t, hrun, hsame, hreturned, hclosed⟩ :=
    exists_close parse prog hphase hfields (by simp [hwrite])
  have hbounded' : t.driver.Bounded := by
    rw [State.Bounded, hclosed]
    exact List.forall_mem_append.mpr ⟨hbounded, List.forall_mem_singleton.mpr
      (bounded_reply (replyFields_ok hfields) htime)⟩
  have hanswered' : (answered t.driver.written).length =
      (answered s.driver.written).length + 1 := by
    rw [hclosed, answered_append, List.length_append]
    rfl
  exact exists_return_of_run hparse hprog h hrun hbounded' (by rw [hsame]; exact hpending)
    hreturned (by omega)

/-- The driver can read the line of the call that waits. -/
theorem exists_readline (parse : List Char → Option Object) (hprog : ValidLines prog)
    (hphase : s.driver.phase = .reading) (hnread : s.nread < s.calls)
    (hcalls : s.calls ≤ prog.length) :
    ∃ e t b, s.step parse prog e = some t ∧ t.driver.phase = .busy b ∧ t.pending = s.pending ∧
      t.returned = s.returned ∧ t.driver.written = s.driver.written ∧
      t.driver.jiffies = s.driver.jiffies := by
  have hlt : s.nread < prog.length := hnread.trans_le hcalls
  have hbytes := (sentLine_iff hprog (n := s.calls)).mpr ⟨hnread, List.getElem?_eq_getElem hlt⟩
  have hline := hprog.commandLine (List.getElem_mem hlt)
  let b : Busy := ⟨prog[s.nread], strim (cString prog[s.nread]), Cli.plainView, s.driver.begin,
    commandTicks Cli.plainView (strim (cString prog[s.nread]))⟩
  let d : State := { s.driver with phase := .busy b, begun := s.driver.begun + 1 }
  have hread : s.driver.step (.readline prog[s.nread] Cli.plainView) = some d := by
    simp [State.step, hphase, hline, d, b]
  refine ⟨.driver (.readline prog[s.nread] Cli.plainView),
    { s with driver := d, nread := s.nread + 1 }, b, ?_, rfl, rfl, rfl, rfl, rfl⟩
  rw [Session.step, if_pos hbytes, hread]
  rfl

/-- A call returns: the driver and the host always have the steps to answer it. -/
theorem exists_return (hparse : ReadsRecords parse) (hprog : ValidLines prog)
    (hbounded : s.driver.Bounded) (h : Paired prog s done todo)
    (hpending : s.pending ≠ none) (hjiffies : s.driver.jiffies < 2 ^ 64) :
    ∃ l t, run (Session.step parse prog) s l = some t ∧
      t.returned.length = s.returned.length + 1 := by
  have hanswered : s.returned.length ≤ (answered s.driver.written).length := by
    rw [h.written, answered_append, List.length_append, h.replies]
    omega
  have hcalls := h.calls
  have hbound := h.bound
  have hlines := congrArg List.length h.lines
  rw [if_pos (Option.isSome_iff_ne_none.mpr hpending)] at hcalls
  rw [List.length_append, List.length_take, Nat.min_eq_left (h.nread.trans hbound)] at hlines
  rcases hanswered.lt_or_eq with hlt | heq
  · exact exists_return_of_run hparse hprog h (l := []) rfl hbounded hpending rfl hlt
  rcases hphase : s.driver.phase with _ | _ | b | _
  · exact absurd hphase h.boot
  · have hidle : (inHand s.driver.phase).length = 0 := by
      rw [hphase]
      rfl
    obtain ⟨e, u, b, hstep, hbusy, hwait, hreturned, hwritten, htime⟩ :=
      exists_readline parse hprog hphase (by omega) hbound
    obtain ⟨done', todo', hu⟩ := step_paired hparse hprog hbounded h hstep
    have hbounded' : u.driver.Bounded := by
      rw [State.Bounded, hwritten]
      exact hbounded
    obtain ⟨l, t, hrun, hcount⟩ := exists_return_of_busy hparse hprog hbounded' hu
      (hwait ▸ hpending) hbusy (htime ▸ hjiffies) (by rw [hreturned, hwritten]; exact hanswered)
    refine ⟨e :: l, t, ?_, by rw [hcount, hreturned]⟩
    simp only [run, hstep]
    exact hrun
  · exact exists_return_of_busy hparse hprog hbounded h hpending hphase hjiffies hanswered
  · have hidle : (inHand s.driver.phase).length = 0 := by
      rw [hphase]
      rfl
    have hend := h.ended hphase
    omega

/-- For every program of lines and every placement of events, the `k`-th call of `Session::cmd`
returns the reply the driver built for the `k`-th line, and the first calls return, in order, the
events written before that reply; no call fails, and a call always can return. `parse` need only
read records whose numbers fit a `u64` or an `i64`. -/
theorem replies_paired (parse : List Char → Option Object) (hparse : ReadsRecords parse)
    (prog : List (List UInt8)) (hprog : ValidLines prog) (d : State)
    (hphase : d.phase = .reading) (hwritten : d.written = [])
    (l : List Label) (s : Session)
    (h : run (Session.step parse prog) (Session.start d) l = some s)
    (hbounded : s.driver.Bounded) :
    (∀ k r, s.returned[k]? = some r →
      ∃ pre o w fields post events, s.driver.written = pre ++ ⟨o, .reply w fields⟩ :: post ∧
        (answered pre).length = k ∧ prog[k]? = some w ∧ BuiltFor w fields ∧
        r = some ⟨toMap (timestampField o.timestamp :: fields), events⟩ ∧
        (s.returned.take (k + 1)).flatMap returnedEvents = eventObjects pre) ∧
    (s.pending ≠ none → s.driver.jiffies < 2 ^ 64 →
      ∃ l' t, run (Session.step parse prog) s l' = some t ∧
        t.returned.length = s.returned.length + 1) := by
  obtain ⟨done, todo, hpaired⟩ := run_paired hparse hprog h hbounded (paired_start hphase hwritten)
  refine ⟨fun k r hr => ?_, exists_return hparse hprog hbounded hpaired⟩
  obtain ⟨pre, o, w, fields, post, events, hsplit, hlen, hline, hreply, hevents⟩ :=
    hpaired.paired k r hr
  have hmem : (⟨o, .reply w fields⟩ : Entry) ∈ s.driver.written := by
    rw [hsplit]
    simp
  exact ⟨pre, o, w, fields, post, events, hsplit, hlen, hline,
    (hpaired.sent _ hmem).built w fields rfl, hreply, hevents⟩

def tickThenExit : List (List UInt8) := [[116, 105, 99, 107], [101, 120, 105, 116]]

theorem validLines_tickThenExit : ValidLines tickThenExit :=
  ⟨by decide, by decide, by decide, by decide, by decide⟩

def balanceBeforeReply : List Label :=
  [.cmd, .driver (.readline [116, 105, 99, 107] Cli.plainView), .driver .tick,
    .driver .eventBegin, .driver (.eventEnd 0 balanceEvent), .driver (.close fourCpuAnswers),
    .recv, .recv]

def readObject (s : List Char) : Option Object := (read s).map toMap

theorem readsRecords_readObject : ReadsRecords readObject := by
  intro r hr _
  rw [readObject, read_text hr, Option.map_some]

theorem replies_paired_tick_then_exit :
    ∃ s, run (Session.step readObject tickThenExit) (Session.start ⟨0, .reading, 1, [], []⟩)
        balanceBeforeReply = some s ∧ s.returned.length = 1 ∧
      ∀ k r, s.returned[k]? = some r →
        ∃ pre o w fields post events, s.driver.written = pre ++ ⟨o, .reply w fields⟩ :: post ∧
          (answered pre).length = k ∧ tickThenExit[k]? = some w ∧ BuiltFor w fields ∧
          r = some ⟨toMap (timestampField o.timestamp :: fields), events⟩ ∧
          (s.returned.take (k + 1)).flatMap returnedEvents = eventObjects pre := by
  refine ⟨_, rfl, rfl, ?_⟩
  exact (replies_paired readObject readsRecords_readObject tickThenExit validLines_tickThenExit
    ⟨0, .reading, 1, [], []⟩ rfl rfl balanceBeforeReply _ rfl (by decide)).1

end KStep.Driver
