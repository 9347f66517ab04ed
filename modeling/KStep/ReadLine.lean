import KStep.Channel
import KStep.Lines

/-!
# Lines read from the channel

At every moment the stream the host has sent is the lines that calls of `kstep_io_readline` have
returned, the part of a line that the current call has taken, and the contents of the ring. The
invariant holds for as long as no byte finds the ring full, through any number of wraps of the
counters.
-/

namespace KStep.Channel

open RingQueue Runs Lines

/-- Between steps: the stream is the lines returned, the part of a line taken and the bytes in the
ring. -/
structure Reading (stream : List UInt8) (s : Io) (ws : List (List UInt8)) (w : List UInt8) :
    Prop where
  stream : stream = unlines newline ws ++ w ++ s.ring.contents rxRing
  lines : ∀ v ∈ ws, newline ∉ v
  part : newline ∉ w
  returned : List.Forall₂ (fun call v => call.2 = v.take (call.1 - 1)) s.returned ws
  idle : s.call = none → w = []
  line : ∀ max line, s.call = some (max, line) → line = w.take (max - 1)
  ready : s.ready = true → s.ring.contents rxRing ≠ []
  room : s.ring.outstanding ≤ rxRing

variable {s t : Io} {e : Label} {l : List Label} {stream w : List UInt8} {ws : List (List UInt8)}

theorem reading_boot : Reading [] Io.boot [] [] where
  stream := rfl
  lines := by simp
  part := by simp
  returned := .nil
  idle _ := rfl
  line max line h := by cases h
  ready h := by cases h
  room := by decide

/-- The first bytes of a line, one byte later. -/
theorem take_concat {max : ℕ} (c : UInt8) :
    (if (w.take (max - 1)).length + 1 < max then w.take (max - 1) ++ [c] else w.take (max - 1)) =
      (w ++ [c]).take (max - 1) := by
  rw [List.take_append, List.length_take]
  split_ifs with hroom
  · have hlen : ([c] : List UInt8).length ≤ max - 1 - w.length := by
      rw [List.length_singleton]
      omega
    rw [List.take_of_length_le hlen]
  · have hle : max - 1 ≤ w.length := by omega
    rw [Nat.sub_eq_zero_of_le hle, List.take_zero, List.append_nil]

namespace Reading

theorem outstanding_eq (h : Reading stream s ws w) :
    stream.length = (unlines newline ws ++ w).length + s.ring.outstanding := by
  rw [h.stream, List.length_append, Buffer.length_contents]

theorem rx (h : Reading stream s ws w) {bufs : List (List UInt8)} {ring : Buffer UInt8}
    (hring : rxDone s.ring bufs = (ring, false)) :
    Reading (stream ++ bufs.flatten) { s with ring := ring } ws w := by
  have hspec := rxDone_spec bufs h.room
  split_ifs at hspec with hover
  · rw [hring] at hspec
    cases hspec
  · obtain ⟨ring', hring', hcontents⟩ := hspec
    cases hring.symm.trans hring'
    refine ⟨?_, h.lines, h.part, h.returned, h.idle, h.line, fun hready => ?_, ?_⟩
    · rw [h.stream, hcontents, List.append_assoc]
    · rw [hcontents]
      exact List.append_ne_nil_of_left_ne_nil (h.ready hready) _
    · have hlen := congrArg List.length hcontents
      rw [List.length_append, Buffer.length_contents, Buffer.length_contents] at hlen
      simp only
      omega

theorem call {max : ℕ} (h : Reading stream s ws w) (hcall : s.call = none) :
    Reading stream { s with call := some (max, []) } ws w := by
  refine ⟨h.stream, h.lines, h.part, h.returned, fun hnone => (by cases hnone), ?_, h.ready,
    h.room⟩
  intro max' line hline
  cases hline
  rw [h.idle hcall, List.take_nil]

theorem look (h : Reading stream s ws w) (hne : s.ring.head ≠ s.ring.tail) :
    Reading stream { s with ready := true } ws w := by
  refine ⟨h.stream, h.lines, h.part, h.returned, h.idle, h.line, fun _ hnil => hne ?_, h.room⟩
  rw [← Buffer.outstanding_eq_zero_iff, ← Buffer.length_contents (r := s.ring), hnil]
  rfl

/-- What `wait_event` has seen is still there when the byte is taken. -/
theorem take_eq (h : Reading stream s ws w) (hready : s.ready = true) :
    s.ring.take rxRing = some (s.ring.slots (s.ring.head.toNat % rxRing),
      { s.ring with head := s.ring.head + 1 }) := by
  refine if_neg fun heq => h.ready hready (Buffer.take_eq_none_iff.mp ?_)
  exact if_pos heq

/-- A byte taken ends the line or adds to it. -/
theorem readByte {max : ℕ} {line : List UInt8} {c : UInt8} {ring : Buffer UInt8}
    (h : Reading stream s ws w) (hcall : s.call = some (max, line))
    (htake : s.ring.take rxRing = some (c, ring)) :
    ∃ ws' w', Reading stream (readByte s ring max line c) ws' w' ∧
      (unlines newline ws' ++ w').length = (unlines newline ws ++ w).length + 1 ∧
      ((Channel.readByte s ring max line c).returned.length = s.returned.length + 1 ↔
        c = newline) := by
  have hstream := h.stream
  rw [Buffer.contents_take htake] at hstream
  have hroom : ring.outstanding ≤ rxRing := by
    have hnext := Buffer.outstanding_take htake
    have hle := h.room
    omega
  have hline := h.line max line hcall
  unfold Channel.readByte
  by_cases hc : c = newline
  · rw [if_pos hc]
    refine ⟨ws ++ [w], [], ⟨?_, fun v hv => ?_, by simp, ?_, fun _ => rfl, by simp, by simp,
      hroom⟩, ?_, by simp [hc]⟩
    · rw [unlines_concat, hstream, hc]
      simp
    · rcases List.mem_append.mp hv with hv | hv
      · exact h.lines v hv
      · rw [List.mem_singleton.mp hv]
        exact h.part
    · exact List.rel_append h.returned (.cons hline .nil)
    · rw [unlines_concat]
      simp
      omega
  · rw [if_neg hc]
    refine ⟨ws, w ++ [c], ⟨?_, h.lines, ?_, h.returned, by simp, ?_, by simp, hroom⟩, ?_,
      by simp [hc]⟩
    · rw [hstream]
      simp
    · rw [List.mem_append, not_or, List.mem_singleton]
      exact ⟨h.part, Ne.symm hc⟩
    · intro max' line' hline'
      cases hline'
      rw [hline]
      exact take_concat c
    · simp
      omega

end Reading

/-- A step that does not panic keeps the stream in order and takes at most one byte of it. -/
theorem step_reading (h : step s e = some t) (hr : Reading stream s ws w)
    (hpanic : t.panicked = false) :
    ∃ ws' w', Reading (stream ++ e.bytes) t ws' w' ∧
      (unlines newline ws' ++ w').length =
        (unlines newline ws ++ w).length + if e = .take then 1 else 0 := by
  rcases (step_cases h).2 with ⟨bufs, rfl, rfl⟩ | ⟨max, rfl, hcall, rfl⟩ |
    ⟨call, rfl, hcall, hne, rfl⟩ | ⟨max, line, rfl, hcall, hready, rfl⟩
  · have hring : rxDone s.ring bufs = ((rxDone s.ring bufs).1, false) := Prod.ext rfl hpanic
    refine ⟨ws, w, ?_, by simp⟩
    have hrx := hr.rx hring
    exact ⟨hrx.stream, hrx.lines, hrx.part, hrx.returned, hrx.idle, hrx.line, hrx.ready, hrx.room⟩
  · exact ⟨ws, w, (List.append_nil stream).symm ▸ hr.call hcall, by simp⟩
  · exact ⟨ws, w, (List.append_nil stream).symm ▸ hr.look hne, by simp⟩
  · obtain ⟨ws', w', hr', hlen, -⟩ := hr.readByte hcall (hr.take_eq hready)
    exact ⟨ws', w', (List.append_nil stream).symm ▸ hr', by simpa using hlen⟩

theorem run_reading (h : run step s l = some t) (hpanic : t.panicked = false)
    (hr : Reading stream s ws w) :
    ∃ ws' w', Reading (stream ++ delivered l) t ws' w' ∧
      (unlines newline ws' ++ w').length = (unlines newline ws ++ w).length + taken l := by
  induction l generalizing s stream ws w with
  | nil =>
      cases h
      exact ⟨ws, w, by simpa [delivered] using hr, by simp [taken]⟩
  | cons e l ih =>
      obtain ⟨u, hstep, hrun⟩ := run_cons h
      have hu : u.panicked = false := by
        rcases l with _ | ⟨e', l⟩
        · cases hrun
          exact hpanic
        · obtain ⟨v, hstep', -⟩ := run_cons hrun
          exact (step_cases hstep').1
      obtain ⟨ws₁, w₁, hr₁, hlen₁⟩ := step_reading hstep hr hu
      obtain ⟨ws₂, w₂, hr₂, hlen₂⟩ := ih hrun hr₁
      refine ⟨ws₂, w₂, ?_, ?_⟩
      · rw [delivered, List.flatMap_cons, ← List.append_assoc]
        exact hr₂
      · rw [hlen₂, hlen₁, taken, taken, List.count_cons]
        simp only [beq_iff_eq]
        omega

/-- The panic is reached exactly by a byte that finds the ring full. -/
theorem panicked_iff (h : run step Io.boot l = some s) : s.panicked = true ↔
    ∃ l₁ bufs, l = l₁ ++ [.rx bufs] ∧
      taken l₁ + rxRing < (delivered l₁).length + bufs.flatten.length := by
  have hover {l₁ : List Label} {u : Io} (hrun : run step Io.boot l₁ = some u)
      (hu : u.panicked = false) (bufs : List (List UInt8)) :
      (rxDone u.ring bufs).2 = true ↔
        taken l₁ + rxRing < (delivered l₁).length + bufs.flatten.length := by
    obtain ⟨ws, w, hr, hlen⟩ := run_reading hrun hu reading_boot
    have hstream := hr.outstanding_eq
    rw [hlen, List.nil_append] at hstream
    have hbegin : (unlines newline [] ++ ([] : List UInt8)).length = 0 := rfl
    have hspec := rxDone_spec bufs hr.room
    split_ifs at hspec with hfull
    · exact iff_of_true hspec (by omega)
    · obtain ⟨r', hr', -⟩ := hspec
      exact iff_of_false (by simp [hr']) (by omega)
  constructor
  · intro hpanic
    rcases List.eq_nil_or_concat' l with rfl | ⟨l₁, e, rfl⟩
    · cases h
      cases hpanic
    · obtain ⟨u, hrun, hstep⟩ := run_concat h
      obtain ⟨hu, hcase⟩ := step_cases hstep
      rcases hcase with ⟨bufs, rfl, rfl⟩ | ⟨max, rfl, -, rfl⟩ | ⟨call, rfl, -, -, rfl⟩ |
        ⟨max, line, rfl, -, -, rfl⟩
      · exact ⟨l₁, bufs, rfl, (hover hrun hu bufs).mp hpanic⟩
      · exact absurd (hu.symm.trans hpanic) (by simp)
      · exact absurd (hu.symm.trans hpanic) (by simp)
      · unfold readByte at hpanic
        split_ifs at hpanic <;> exact absurd (hu.symm.trans hpanic) (by simp)
  · rintro ⟨l₁, bufs, rfl, hfull⟩
    obtain ⟨u, hrun, hstep⟩ := run_concat h
    obtain ⟨hu, hcase⟩ := step_cases hstep
    rcases hcase with ⟨bufs', heq, rfl⟩ | ⟨_, heq, -⟩ | ⟨_, heq, -⟩ | ⟨_, _, heq, -⟩
    · cases heq
      exact (hover hrun hu bufs).mpr hfull
    · cases heq
    · cases heq
    · cases heq

/-- The controller can always take the oldest byte. -/
theorem run_look_take {max : ℕ} {line : List UInt8} {c : UInt8} {ring : Buffer UInt8}
    (hpanic : s.panicked = false) (hcall : s.call = some (max, line))
    (htake : s.ring.take rxRing = some (c, ring)) :
    run step s [.look, .take] = some (readByte { s with ready := true } ring max line c) := by
  simp only [Buffer.take] at htake
  split_ifs at htake with hne
  cases htake
  simp [run, step, hpanic, hcall, hne]

/-- A call whose newline has arrived returns: no step of `rx_done` is needed. -/
theorem exists_return (hr : Reading stream s ws w) (hpanic : s.panicked = false)
    (hcall : s.call ≠ none) (hnl : newline ∈ s.ring.contents rxRing) :
    ∃ l' t, (∀ e ∈ l', e = .look ∨ e = .take) ∧ run step s l' = some t ∧
      t.returned.length = s.returned.length + 1 := by
  generalize hn : s.ring.contents rxRing = contents at hnl
  induction contents generalizing s ws w with
  | nil => cases hnl
  | cons c contents ih =>
      obtain ⟨⟨max, line⟩, hcall⟩ := Option.ne_none_iff_exists'.mp hcall
      rcases htake : s.ring.take rxRing with _ | ⟨c', ring⟩
      · rw [Buffer.take_eq_none_iff, hn] at htake
        cases htake
      have hcontents := Buffer.contents_take htake
      rw [hn] at hcontents
      obtain ⟨rfl, hrest⟩ := List.cons.inj hcontents
      have hrun := run_look_take hpanic hcall htake
      have hne : s.ring.head ≠ s.ring.tail := fun heq => by simp [Buffer.take, heq] at htake
      obtain ⟨ws', w', hr', -, hreturned⟩ := (hr.look hne).readByte hcall htake
      by_cases hend : c = newline
      · exact ⟨[.look, .take], _, by simp, hrun, hreturned.mpr hend⟩
      · have hnext : newline ∈ contents := (List.mem_cons.mp hnl).resolve_left (Ne.symm hend)
        have hread : readByte { s with ready := true } ring max line c =
            { s with
              ring := ring
              ready := false
              call := some (max, if line.length + 1 < max then line ++ [c] else line) } :=
          if_neg hend
        rw [hread] at hr' hrun
        obtain ⟨l', t, hl', hrun', hcount⟩ := ih hr' hpanic (by simp) hrest.symm hnext
        refine ⟨[.look, .take] ++ l', t, by simpa using hl', ?_, hcount⟩
        rw [run_append hrun]
        exact hrun'

/-- A call returns the line of the stream that is its turn, cut to its buffer. -/
theorem returned_line {i max : ℕ} {line : List UInt8} (hr : Reading stream s ws w)
    (hi : s.returned[i]? = some (max, line)) :
    ∃ v, (lines newline stream)[i]? = some v ∧ line = v.take (max - 1) := by
  obtain ⟨hlt, hget⟩ := List.getElem?_eq_some_iff.mp hi
  have hlt' : i < ws.length := hr.returned.length_eq ▸ hlt
  refine ⟨ws[i], ?_, ?_⟩
  · rw [hr.stream, List.append_assoc, lines_unlines_append hr.lines,
      List.getElem?_append_left hlt', List.getElem?_eq_getElem hlt']
  · have hrel := (List.forall₂_iff_get.mp hr.returned).2 i hlt hlt'
    rw [List.get_eq_getElem, hget] at hrel
    exact hrel

/-- However the stream is cut into buffers and however `rx_done` falls between the controller's
steps: the calls of `kstep_io_readline` return the lines of the stream, each cut to its buffer, and
every byte is in the line it was sent in; a call returns once its newline has arrived; and the
overflow panic is reached exactly when a byte arrives with 4096 outstanding. -/
theorem readline_lines (l : List Label) (s : Io) (h : run step Io.boot l = some s) :
    (s.panicked = false →
      (∀ (i max : ℕ) (line : List UInt8), s.returned[i]? = some (max, line) →
        ∃ w, (lines newline (delivered l))[i]? = some w ∧ line = w.take (max - 1)) ∧
      s.returned.length = (lines newline ((delivered l).take (taken l))).length ∧
      s.ring.contents rxRing = (delivered l).drop (taken l) ∧
      (s.call ≠ none → newline ∈ (delivered l).drop (taken l) →
        ∃ l' t, (∀ e ∈ l', e = .look ∨ e = .take) ∧ run step s l' = some t ∧
          t.returned.length = s.returned.length + 1)) ∧
    (s.panicked = true ↔ ∃ l₁ bufs, l = l₁ ++ [.rx bufs] ∧
      taken l₁ + rxRing < (delivered l₁).length + bufs.flatten.length) := by
  refine ⟨fun hpanic => ?_, panicked_iff h⟩
  obtain ⟨ws, w, hr, hlen⟩ := run_reading h hpanic reading_boot
  rw [List.nil_append] at hr
  have htaken : (unlines newline ws ++ w).length = taken l := by
    rw [hlen]
    exact Nat.zero_add _
  have hcontents : s.ring.contents rxRing = (delivered l).drop (taken l) := by
    rw [hr.stream, ← htaken, List.drop_left]
  refine ⟨fun i max line => returned_line hr, ?_, hcontents, fun hcall hnl => ?_⟩
  · rw [hr.stream, ← htaken, List.take_left, lines_unlines_append hr.lines,
      lines_of_not_mem hr.part, List.append_nil]
    exact hr.returned.length_eq
  · exact exists_return hr hpanic hcall (hcontents ▸ hnl)

/-- A line of three bytes in two buffers, read into a buffer of three while the next arrives. -/
def twoBuffers : List Label :=
  [.call 3, .rx [[97], [98, 99]], .look, .take, .look, .take, .look, .rx [[10, 100]], .take, .look,
    .take]

theorem readline_lines_two_buffers : ∃ s, run step Io.boot twoBuffers = some s ∧
    s.returned[0]? = some (3, [97, 98]) ∧
    ∃ w, (lines newline (delivered twoBuffers))[0]? = some w ∧ [97, 98] = w.take 2 :=
  ⟨_, rfl, rfl, ((readline_lines twoBuffers _ rfl).1 rfl).1 0 3 [97, 98] rfl⟩

end KStep.Channel
