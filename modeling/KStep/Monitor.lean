import KStep.LossyText
import KStep.Runs

/-!
# The monitor conversation

`hmp` writes a line to QEMU's monitor and reads until what it has read ends in a prompt. The monitor
sends a banner and a prompt when `monitor` connects, then an echo, an output and a prompt for each
line it receives. A read takes what has been delivered of the unread bytes and decodes it on its
own; a read that fails ends the connection.
-/

namespace KStep.Monitor

open Runs Shm

def prompt : List Char := "(qemu) ".toList

def bufSize : ℕ := 4096

structure Exchange where
  line : List Char
  echo : List Char
  output : List Char
  deriving DecidableEq, Repr

def Exchange.text (x : Exchange) : List Char := x.echo ++ x.output ++ prompt

/-- `lines` are the lines the monitor has received and not answered, `call` the command of the
`hmp` in progress and its `out`, `returned` each command with the text its `hmp` returned. -/
structure Conversation where
  read : List UInt8
  unread : List UInt8
  lines : List (List Char)
  call : Option (List Char × List Char)
  answers : List Exchange
  returned : List (List Char × List Char)
  deriving DecidableEq, Repr

/-- `monitor`, with its empty line written. -/
def connect (banner : List Char) : Conversation where
  read := []
  unread := encode (banner ++ prompt)
  lines := [[]]
  call := some ([], [])
  answers := []
  returned := []

inductive Event
  | hmp (cmd : List Char)
  | answer (echo output : List Char)
  | read (n : ℕ)
  deriving DecidableEq, Repr

def step (s : Conversation) : Event → Option Conversation
  | .hmp cmd => match s.call with
    | none => some { s with lines := s.lines ++ cmd.splitOn '\n', call := some (cmd, []) }
    | some _ => none
  | .answer echo output => match s.lines with
    | [] => none
    | line :: lines =>
        let x : Exchange := ⟨line, echo, output⟩
        some { s with
          lines := lines
          unread := s.unread ++ encode x.text
          answers := s.answers ++ [x] }
  | .read n => match s.call with
    | none => none
    | some (cmd, out) =>
        if 0 < n ∧ n ≤ bufSize ∧ n ≤ s.unread.length then
          let out := out ++ fromUtf8Lossy (s.unread.take n)
          let s := { s with read := s.read ++ s.unread.take n, unread := s.unread.drop n }
          some (if prompt <:+ out then
              { s with call := none, returned := s.returned ++ [(cmd, out)] }
            else { s with call := some (cmd, out) })
        else none

def transcript (banner : List Char) (answers : List Exchange) : List Char :=
  banner ++ prompt ++ answers.flatMap Exchange.text

/-- Each line with the text that is its own: its answer, for the first line after the banner. -/
def ownTexts (banner : List Char) : List Exchange → List (List Char × List Char)
  | [] => []
  | x :: answers => (x.line, banner ++ prompt ++ x.text) :: answers.map fun x => (x.line, x.text)

/-- Between calls nothing is unread or unanswered, every call returned its own line's text, and a
call in progress has something to wait for. -/
structure InStep (banner : List Char) (s : Conversation) : Prop where
  between : s.call = none → s.unread = [] ∧ s.lines = []
  own : s.returned <+: ownTexts banner s.answers
  waiting : s.call ≠ none → s.lines ≠ [] ∨ s.unread ≠ []

/-- A command is one line, no read ends inside a character, and none ends after a prompt other than
the one that ends an answer. -/
def Clean (banner : List Char) (s : Conversation) : Event → Prop
  | .hmp cmd => '\n' ∉ cmd
  | .answer _ _ => True
  | .read n => ∃ text, s.read ++ s.unread.take n = encode text ∧
      (prompt <:+ text → ∃ xs, xs ≠ [] ∧ xs <+: s.answers ∧ text = transcript banner xs)

def Conversation.text (s : Conversation) : List Char :=
  s.returned.flatMap Prod.snd ++ (s.call.map Prod.snd).getD []

inductive Phase (banner : List Char) (s : Conversation) : Prop
  | idle (hcall : s.call = none) (hunread : s.unread = []) (hlines : s.lines = [])
      (hne : s.answers ≠ []) (hreturned : s.returned = ownTexts banner s.answers)
  | sent (cmd out : List Char) (hcall : s.call = some (cmd, out)) (hlines : s.lines = [cmd])
      (hreturned : s.returned = ownTexts banner s.answers)
  | answered (out : List Char) (prior : List Exchange) (x : Exchange)
      (hcall : s.call = some (x.line, out)) (hlines : s.lines = []) (hunread : s.unread ≠ [])
      (hanswers : s.answers = prior ++ [x]) (hreturned : s.returned = ownTexts banner prior)

structure Synced (banner : List Char) (s : Conversation) : Prop where
  stream : s.read ++ s.unread = encode (transcript banner s.answers)
  read : s.read = encode s.text
  phase : Phase banner s

variable {banner : List Char} {s t : Conversation} {xs prior : List Exchange} {x : Exchange}

theorem transcript_concat : transcript banner (xs ++ [x]) = transcript banner xs ++ x.text := by
  simp [transcript]

theorem texts_ownTexts (h : xs ≠ []) :
    (ownTexts banner xs).flatMap Prod.snd = transcript banner xs := by
  cases xs with
  | nil => exact absurd rfl h
  | cons x xs => simp [ownTexts, transcript, List.flatMap_map]

theorem ownTexts_concat {text : List Char}
    (h : (ownTexts banner prior).flatMap Prod.snd ++ text = transcript banner (prior ++ [x])) :
    ownTexts banner (prior ++ [x]) = ownTexts banner prior ++ [(x.line, text)] := by
  cases prior with
  | nil =>
      have htext : text = banner ++ prompt ++ x.text := by
        simpa [ownTexts, transcript] using h
      rw [htext]
      rfl
  | cons y ys =>
      rw [texts_ownTexts (List.cons_ne_nil y ys), transcript_concat] at h
      rw [List.append_cancel_left h]
      simp [ownTexts]

theorem prompt_isSuffix_text : prompt <:+ x.text := ⟨x.echo ++ x.output, rfl⟩

theorem prompt_isSuffix_of_mem {p : List Char × List Char} (h : p ∈ ownTexts banner xs) :
    prompt <:+ p.2 := by
  cases xs with
  | nil => cases h
  | cons x xs =>
      rcases List.mem_cons.mp h with rfl | hmem
      · exact prompt_isSuffix_text.trans (List.suffix_append _ _)
      · obtain ⟨y, -, rfl⟩ := List.mem_map.mp hmem
        exact prompt_isSuffix_text

/-- What an event does, with what it needs. -/
theorem step_cases {e : Event} (h : step s e = some t) :
    (∃ cmd, e = .hmp cmd ∧ s.call = none ∧
      t = { s with lines := s.lines ++ cmd.splitOn '\n', call := some (cmd, []) }) ∨
    (∃ x lines, e = .answer x.echo x.output ∧ s.lines = x.line :: lines ∧
      t = { s with
        lines := lines
        unread := s.unread ++ encode x.text
        answers := s.answers ++ [x] }) ∨
    ∃ n cmd out out', e = .read n ∧ s.call = some (cmd, out) ∧ 0 < n ∧ n ≤ s.unread.length ∧
      out' = out ++ fromUtf8Lossy (s.unread.take n) ∧
      ((prompt <:+ out' ∧ t = { s with
          read := s.read ++ s.unread.take n
          unread := s.unread.drop n
          call := none
          returned := s.returned ++ [(cmd, out')] }) ∨
        (¬ prompt <:+ out' ∧ t = { s with
          read := s.read ++ s.unread.take n
          unread := s.unread.drop n
          call := some (cmd, out') })) := by
  cases e with
  | hmp cmd =>
      simp only [step] at h
      split at h
      · cases h
        exact Or.inl ⟨cmd, rfl, ‹_›, rfl⟩
      · cases h
  | answer echo output =>
      simp only [step] at h
      split at h
      · cases h
      · cases h
        exact Or.inr (Or.inl ⟨⟨_, echo, output⟩, _, rfl, ‹_›, rfl⟩)
  | read n =>
      simp only [step] at h
      split at h
      · cases h
      next cmd out hcall =>
        by_cases hn : 0 < n ∧ n ≤ bufSize ∧ n ≤ s.unread.length
        · rw [if_pos hn] at h
          refine Or.inr (Or.inr ⟨n, cmd, out, _, rfl, hcall, hn.1, hn.2.2, rfl, ?_⟩)
          by_cases hp : prompt <:+ out ++ fromUtf8Lossy (s.unread.take n)
          · rw [if_pos hp] at h
            exact Or.inl ⟨hp, (Option.some.inj h).symm⟩
          · rw [if_neg hp] at h
            exact Or.inr ⟨hp, (Option.some.inj h).symm⟩
        · rw [if_neg hn] at h
          cases h

theorem synced_hmp {cmd : List Char} (hs : Synced banner s) (hcall : s.call = none)
    (hcmd : '\n' ∉ cmd) :
    Synced banner { s with lines := s.lines ++ cmd.splitOn '\n', call := some (cmd, []) } := by
  refine ⟨hs.stream, ?_, ?_⟩
  · have htext := hs.read
    simpa only [Conversation.text, hcall, Option.map_none, Option.map_some,
      Option.getD_none, Option.getD_some] using htext
  · rcases hs.phase with ⟨-, -, hlines, -, hreturned⟩ | ⟨cmd', out, h, -, -⟩ |
      ⟨out, prior, x, h, -, -, -, -⟩
    · refine Phase.sent cmd [] rfl ?_ hreturned
      rw [hlines, List.splitOn_eq_singleton hcmd, List.nil_append]
    · rw [hcall] at h
      cases h
    · rw [hcall] at h
      cases h

theorem synced_answer {lines : List (List Char)} (hs : Synced banner s)
    (hlines : s.lines = x.line :: lines) :
    Synced banner { s with
      lines := lines
      unread := s.unread ++ encode x.text
      answers := s.answers ++ [x] } := by
  refine ⟨?_, hs.read, ?_⟩
  · rw [← List.append_assoc, hs.stream, transcript_concat, encode_append]
  · rcases hs.phase with ⟨-, -, h, -, -⟩ | ⟨cmd, out, hcall, h, hreturned⟩ |
      ⟨out, prior, y, -, h, -, -, -⟩
    · rw [h] at hlines
      cases hlines
    · rw [h] at hlines
      obtain ⟨rfl, rfl⟩ := List.cons.inj hlines
      refine Phase.answered out s.answers x hcall rfl ?_ rfl hreturned
      intro hnil
      have hencode : encode x.text = encode [] := (List.append_eq_nil_iff.mp hnil).2
      have htext : x.text = [] := encode_injective hencode
      have hprompt := (List.append_eq_nil_iff.mp htext).2
      cases hprompt
    · rw [h] at hlines
      cases hlines

/-- Nothing follows what answers have been heard up to the end of one of them. -/
theorem eq_nil_of_heard {ys : List Exchange} {w : List Char} (hxs : xs ≠ []) (hys : xs <+: ys)
    (h : transcript banner xs = (ownTexts banner ys).flatMap Prod.snd ++ w) : w = [] := by
  obtain ⟨zs, rfl⟩ := hys
  have hne : xs ++ zs ≠ [] := by simp [hxs]
  rw [texts_ownTexts hne, transcript, transcript, List.flatMap_append] at h
  have hlength := congrArg List.length h
  simp only [List.length_append] at hlength
  exact List.eq_nil_of_length_eq_zero (by omega)

section Read

variable {cmd out u : List Char} {n : ℕ}

/-- A read that ends at a character takes whole characters. -/
theorem exists_chars {text : List Char} (hs : Synced banner s) (hcall : s.call = some (cmd, out))
    (htext : s.read ++ s.unread.take n = encode text) :
    ∃ u, text = s.returned.flatMap Prod.snd ++ (out ++ u) ∧ s.unread.take n = encode u := by
  rw [hs.read] at htext
  obtain ⟨u, hu, htake⟩ := encode_append_eq htext
  refine ⟨u, ?_, htake⟩
  rw [hu, Conversation.text, hcall, List.append_assoc]
  rfl

/-- A read that ends with an answer ends the answer to the call's own line. -/
theorem answered_of_read (hs : Synced banner s) (hcall : s.call = some (cmd, out)) (hu : u ≠ [])
    (hxs : xs ≠ []) (hsent : xs <+: s.answers)
    (h : transcript banner xs = s.returned.flatMap Prod.snd ++ (out ++ u)) :
    xs = s.answers ∧ s.lines = [] ∧ ∃ prior x, x.line = cmd ∧ s.answers = prior ++ [x] ∧
      s.returned = ownTexts banner prior := by
  have hfresh (ys : List Exchange) (hys : s.returned = ownTexts banner ys) : ¬ xs <+: ys := by
    intro hle
    rw [hys] at h
    exact hu (List.append_eq_nil_iff.mp (eq_nil_of_heard hxs hle h)).2
  rcases hs.phase with ⟨hnone, -, -, -, -⟩ | ⟨cmd', out', -, -, hreturned⟩ |
    ⟨out', prior, x, hcall', hlines, -, hanswers, hreturned⟩
  · rw [hcall] at hnone
    cases hnone
  · exact absurd hsent (hfresh s.answers hreturned)
  · rw [hcall] at hcall'
    obtain ⟨rfl, rfl⟩ := Prod.mk.inj (Option.some.inj hcall')
    rw [hanswers, List.prefix_concat_iff] at hsent
    refine ⟨?_, hlines, prior, x, rfl, hanswers, hreturned⟩
    rcases hsent with hsent | hsent
    · rw [hsent, hanswers]
    · exact absurd hsent (hfresh prior hreturned)

theorem stream_read (hs : Synced banner s) :
    s.read ++ s.unread.take n ++ s.unread.drop n = encode (transcript banner s.answers) := by
  rw [List.append_assoc, List.take_append_drop, hs.stream]

theorem synced_return (hs : Synced banner s) (hcall : s.call = some (cmd, out)) (hu : u ≠ [])
    (htake : s.unread.take n = encode u) (hxs : xs ≠ []) (hsent : xs <+: s.answers)
    (h : transcript banner xs = s.returned.flatMap Prod.snd ++ (out ++ u)) :
    Synced banner { s with
      read := s.read ++ s.unread.take n
      unread := s.unread.drop n
      call := none
      returned := s.returned ++ [(cmd, out ++ u)] } := by
  obtain ⟨rfl, hlines, prior, x, rfl, hanswers, hreturned⟩ :=
    answered_of_read hs hcall hu hxs hsent h
  have hread : s.read ++ s.unread.take n = encode (transcript banner s.answers) := by
    rw [hs.read, htake, ← encode_append, h, Conversation.text, hcall, List.append_assoc]
    rfl
  refine ⟨stream_read hs, ?_, Phase.idle rfl ?_ hlines hxs ?_⟩
  · simpa [Conversation.text, h] using hread
  · have hstream := stream_read (n := n) hs
    rw [hread] at hstream
    exact List.append_cancel_left (hstream.trans (List.append_nil _).symm)
  · rw [hanswers, hreturned] at h
    rw [hanswers, hreturned, ownTexts_concat h.symm]

theorem synced_readMore (hs : Synced banner s) (hcall : s.call = some (cmd, out))
    (htake : s.unread.take n = encode u) (hprompt : ¬ prompt <:+ out ++ u) :
    Synced banner { s with
      read := s.read ++ s.unread.take n
      unread := s.unread.drop n
      call := some (cmd, out ++ u) } := by
  have htext : s.read ++ s.unread.take n = encode (s.returned.flatMap Prod.snd ++ (out ++ u)) := by
    rw [hs.read, htake, ← encode_append, Conversation.text, hcall, List.append_assoc]
    rfl
  refine ⟨stream_read hs, htext, ?_⟩
  rcases hs.phase with ⟨hnone, -, -, -, -⟩ | ⟨cmd', out', hcall', hlines, hreturned⟩ |
    ⟨out', prior, x, hcall', hlines, -, hanswers, hreturned⟩
  · rw [hcall] at hnone
    cases hnone
  · rw [hcall] at hcall'
    obtain ⟨rfl, rfl⟩ := Prod.mk.inj (Option.some.inj hcall')
    exact Phase.sent cmd (out ++ u) rfl hlines hreturned
  · rw [hcall] at hcall'
    obtain ⟨rfl, rfl⟩ := Prod.mk.inj (Option.some.inj hcall')
    refine Phase.answered (out ++ u) prior x rfl hlines ?_ hanswers hreturned
    intro (hdrop : s.unread.drop n = [])
    have hstream := stream_read (n := n) hs
    rw [hdrop, List.append_nil, htext, hanswers, hreturned] at hstream
    have hown : (x.line, out ++ u) ∈ ownTexts banner (prior ++ [x]) := by
      rw [ownTexts_concat (encode_injective hstream)]
      exact List.mem_append_right _ List.mem_cons_self
    exact hprompt (prompt_isSuffix_of_mem hown)

end Read

theorem synced_connect (banner : List Char) : Synced banner (connect banner) where
  stream := by simp [connect, transcript]
  read := rfl
  phase := Phase.sent [] [] rfl rfl rfl

theorem synced_step {e : Event} (hclean : Clean banner s e) (h : step s e = some t)
    (hs : Synced banner s) : Synced banner t := by
  rcases step_cases h with ⟨cmd, rfl, hcall, rfl⟩ | ⟨x, lines, rfl, hlines, rfl⟩ |
    ⟨n, cmd, out, out', rfl, hcall, hn, hlen, rfl, hread⟩
  · exact synced_hmp hs hcall hclean
  · exact synced_answer hs hlines
  · obtain ⟨text, htext, hend⟩ := hclean
    obtain ⟨u, rfl, htake⟩ := exists_chars hs hcall htext
    have hu : u ≠ [] := by
      rintro rfl
      have hlength := congrArg List.length htake
      rw [List.length_take, encode, List.flatMap_nil, List.length_nil] at hlength
      omega
    rw [htake, fromUtf8Lossy_encode, ← htake] at hread
    rcases hread with ⟨hprompt, rfl⟩ | ⟨hprompt, rfl⟩
    · obtain ⟨xs, hxs, hsent, heq⟩ := hend (hprompt.trans (List.suffix_append _ _))
      exact synced_return hs hcall hu htake hxs hsent heq.symm
    · exact synced_readMore hs hcall htake hprompt

theorem ownTexts_prefix_concat : ownTexts banner prior <+: ownTexts banner (prior ++ [x]) := by
  cases prior with
  | nil => exact List.nil_prefix
  | cons y ys => exact ⟨[(x.line, x.text)], by simp [ownTexts]⟩

theorem inStep_of_synced (hs : Synced banner s) : InStep banner s := by
  rcases hs.phase with ⟨hcall, hunread, hlines, -, hreturned⟩ |
    ⟨cmd, out, hcall, hlines, hreturned⟩ | ⟨out, prior, x, hcall, -, hunread, hanswers, hreturned⟩
  · refine ⟨fun _ => ⟨hunread, hlines⟩, ?_, fun h => absurd hcall h⟩
    rw [hreturned]
  · refine ⟨fun h => ?_, ?_, fun _ => Or.inl ?_⟩
    · rw [hcall] at h
      cases h
    · rw [hreturned]
    · rw [hlines]
      exact List.cons_ne_nil _ _
  · refine ⟨fun h => ?_, ?_, fun _ => Or.inr hunread⟩
    · rw [hcall] at h
      cases h
    · rw [hreturned, hanswers]
      exact ownTexts_prefix_concat

/-- In every run whose reads end at no other prompt than an answer's, the conversation is in
step. -/
theorem conversation_in_step {l : List Event}
    (hclean : Always step (Clean banner) (connect banner) l)
    (hrun : run step (connect banner) l = some s) : InStep banner s :=
  inStep_of_synced (run_invariant_of_always (I := Synced banner)
    (fun _ _ _ hclean hstep hs => synced_step hclean hstep hs) hrun hclean (synced_connect banner))

/-- A read of everything, up to a prompt, ends the call. -/
theorem step_readAll {cmd out u : List Char} {n : ℕ} (hcall : s.call = some (cmd, out))
    (hunread : s.unread = encode u) (hlen : (encode u).length = n) (hn : 0 < n ∧ n ≤ bufSize)
    (hprompt : prompt <:+ out ++ u) :
    step s (.read n) = some { s with
      read := s.read ++ encode u
      unread := []
      call := none
      returned := s.returned ++ [(cmd, out ++ u)] } := by
  have htake : s.unread.take n = encode u := by rw [hunread, ← hlen, List.take_length]
  have hdrop : s.unread.drop n = [] := by rw [hunread, ← hlen, List.drop_length]
  have hle : n ≤ s.unread.length := by rw [hunread, hlen]
  simp only [step, hcall, htake, hdrop, fromUtf8Lossy_encode]
  rw [if_pos ⟨hn.1, hn.2, hle⟩, if_pos hprompt]

/-- A call whose answer is there when it reads returns it. -/
theorem run_exchange {n : ℕ} (hcall : s.call = none) (hunread : s.unread = [])
    (hlines : s.lines = []) (hline : '\n' ∉ x.line) (hlen : (encode x.text).length = n)
    (hn : 0 < n ∧ n ≤ bufSize) :
    run step s [.hmp x.line, .answer x.echo x.output, .read n] = some { s with
      read := s.read ++ encode x.text
      answers := s.answers ++ [x]
      returned := s.returned ++ [(x.line, x.text)] } := by
  have hread := step_readAll (s := { s with
      unread := encode x.text
      call := some (x.line, [])
      answers := s.answers ++ [x] }) rfl rfl hlen hn prompt_isSuffix_text
  simp only [run, step, hcall, hunread, hlines, List.splitOn_eq_singleton hline, List.nil_append]
  simp only [step, hlines, List.nil_append] at hread
  rw [hread]

def qemuBanner : List Char := "QEMU monitor\r\n".toList

def emptyLine : Exchange := ⟨[], [], "\r\n".toList⟩

def infoStatus : Exchange :=
  ⟨"info status".toList, "info status".toList, "\r\nVM status: running\r\n".toList⟩

/-- The conversation after `monitor` has returned with the answer to its empty line. -/
def pastBanner : Conversation where
  read := encode (transcript qemuBanner [emptyLine])
  unread := []
  lines := []
  call := none
  answers := [emptyLine]
  returned := ownTexts qemuBanner [emptyLine]

theorem run_pastBanner :
    run step (connect qemuBanner) [.answer [] emptyLine.output, .read 30] = some pastBanner := by
  have hread := step_readAll (s := ⟨[], encode (qemuBanner ++ prompt) ++ encode emptyLine.text, [],
    some ([], []), [emptyLine], []⟩) (u := transcript qemuBanner [emptyLine]) (n := 30) rfl
    encode_append.symm (by decide) (by decide) (by decide)
  exact hread

/-- `Session::start` on a resumed machine: each answer is there when it is read. -/
def resumed : List Event :=
  [.answer [] emptyLine.output, .read 30] ++
    [.hmp infoStatus.line, .answer infoStatus.echo infoStatus.output, .read 40]

theorem conversation_in_step_resumed :
    ∃ s, run step (connect qemuBanner) resumed = some s ∧
      s.returned = ownTexts qemuBanner [emptyLine, infoStatus] ∧ InStep qemuBanner s := by
  have hcmd : '\n' ∉ infoStatus.line := by decide
  have hstatus := run_exchange (s := pastBanner) (x := infoStatus) (n := 40) rfl rfl rfl hcmd
    (by decide) (by decide)
  have hrun := (run_append run_pastBanner).trans hstatus
  have hclean : Always step (Clean qemuBanner) (connect qemuBanner) resumed := by
    refine (always_append run_pastBanner).mpr ⟨⟨trivial, ⟨transcript qemuBanner [emptyLine], ?_,
      fun _ => ?_⟩, trivial⟩, ⟨hcmd, trivial, ⟨transcript qemuBanner [emptyLine, infoStatus], ?_,
      fun _ => ?_⟩, trivial⟩⟩
    · decide +kernel
    · exact ⟨[emptyLine], by decide, by decide, rfl⟩
    · decide +kernel
    · exact ⟨[emptyLine, infoStatus], by decide, by decide, rfl⟩
  exact ⟨_, hrun, rfl, conversation_in_step hclean hrun⟩

/-- The first read may end with the prompt of the banner. The answer to the empty line is then
taken for that to the next command. -/
theorem banner_prompt_taken_for_answer :
    ∃ s, run step (connect qemuBanner) [.read 21, .answer [] emptyLine.output,
        .hmp infoStatus.line, .read 9] = some s ∧ '\n' ∉ infoStatus.line ∧
      s.returned = [([], qemuBanner ++ prompt), (infoStatus.line, emptyLine.text)] ∧
      s.lines = [infoStatus.line] ∧ ¬ InStep qemuBanner s := by
  have hbanner := step_readAll (s := connect qemuBanner) (n := 21) rfl rfl (by decide) (by decide)
    (by decide)
  have hanswer := step_readAll (s := ⟨encode (qemuBanner ++ prompt), encode emptyLine.text,
    [infoStatus.line], some (infoStatus.line, []), [emptyLine], [([], qemuBanner ++ prompt)]⟩)
    (n := 9) rfl rfl (by decide) (by decide) (by decide)
  have hrun : run step (connect qemuBanner) [.read 21, .answer [] emptyLine.output,
      .hmp infoStatus.line, .read 9] = some ⟨encode (qemuBanner ++ prompt) ++ encode emptyLine.text,
        [], [infoStatus.line], none, [emptyLine],
        [([], qemuBanner ++ prompt), (infoStatus.line, emptyLine.text)]⟩ := by
    rw [run, hbanner]
    exact hanswer
  refine ⟨_, hrun, by decide, rfl, rfl, fun h => ?_⟩
  exact List.cons_ne_nil _ _ (h.between rfl).2

end KStep.Monitor
