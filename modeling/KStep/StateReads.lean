import KStep.ReplyPairing
import KStep.ShmLayout

/-!
# What the host reads between commands

`Session::state` copies the shared region out of the guest's memory while the guest runs, with no
lock between them: the driver fills the region before it closes a reply, and the host reads it after
the reply has come and before the next line goes out. So no copy is torn, and each is the region as
the driver left it for the last line answered.
-/

namespace KStep.StateReads

open Driver Runs Shm

/-- What a call of `Session::state` returned, and the replies the host had before. -/
structure Read where
  replies : ℕ
  state : Except Stop Shm.State

/-- A session, the module and the bytes of the region in the guest's memory. `updated` holds once
`kstep_shm_update` is over for the line in execution, `updates` lists the lines and sessions it has
been called for, and `copied` is what a call of `Session::state` in progress has read so far. -/
structure State where
  session : Driver.Session
  module : Module
  mem : List UInt8
  updated : Bool
  updates : List (List UInt8 × Shm.Session)
  copied : Option (List UInt8)
  reads : List Read

/-- The session that `Session::start` returns, except that it has not read the region yet. -/
def State.start (k : Kernel) (d : Driver.State) (mem : List UInt8) : State :=
  ⟨.start d, kstepShmInit k, mem, false, [], none, []⟩

inductive Label
  | session (e : Driver.Label)
  /-- a store of `kstep_shm_update`: whatever is in the region for the moment -/
  | store (mem : List UInt8)
  /-- the last one -/
  | update (s : Shm.Session) (mem : List UInt8)
  /-- the host calls `Session::state`, reads up to `n` more bytes, and decodes them all -/
  | readBegin
  | copy (n : ℕ)
  | readEnd

/-- The line whose command has done its ticks, so that the region can be updated for it. -/
def State.settled (w : State) : Option (List UInt8) :=
  match w.session.driver.phase with
  | .busy b => if b.ticks = 0 ∧ w.updated = false then some b.bytes else none
  | _ => none

deriving instance DecidableEq for Hdr, CpuRow, SeRow, TaskRow, CgroupRow, CfsRow, EntityRow, RtRow,
  RtEntityRow, DomainRow, GroupRow, Region

def Holds (mem : List UInt8) (r : Region) : Prop := mem.length = shmSize ∧ readRegion mem = r

instance decidableHolds (mem : List UInt8) (r : Region) : Decidable (Holds mem r) :=
  inferInstanceAs (Decidable (mem.length = shmSize ∧ readRegion mem = r))

variable (parse : List Char → Option Object) (prog : List (List UInt8)) (k : Kernel)

/-- A step of the session. A call is made when no other is in progress, and a reply is closed when
the region has been updated. -/
def sessionStep (w : State) : Driver.Label → Option State
  | .cmd =>
      if w.copied = none then (w.session.step parse prog .cmd).map fun s => { w with session := s }
      else none
  | .driver (.close a) =>
      if w.updated then (w.session.step parse prog (.driver (.close a))).map fun s =>
        { w with session := s, updated := false }
      else none
  | e => (w.session.step parse prog e).map fun s => { w with session := s }

def step (w : State) : Label → Option State
  | .session e => sessionStep parse prog w e
  | .store mem =>
      if w.settled ≠ none ∧ mem.length = shmSize then some { w with mem := mem } else none
  | .update s mem => match w.settled, kstepShmUpdate k w.module s with
    | some line, some m =>
        if Holds mem m.shm then
          some { w with
            module := m
            mem := mem
            updated := true
            updates := w.updates ++ [(line, s)] }
        else none
    | _, _ => none
  | .readBegin =>
      if w.session.pending.isNone ∧ w.copied = none then some { w with copied := some [] } else none
  | .copy n => w.copied.map fun buf =>
      { w with copied := some (buf ++ (w.mem.drop buf.length).take n) }
  | .readEnd => match w.copied with
    | some buf =>
        if buf.length = shmSize then
          some { w with
            copied := none
            reads := w.reads ++ [⟨w.session.returned.length, decodeBytes buf⟩] }
        else none
    | none => none

/-- What a call of `Session::state` reads after `n` replies: the module's region once it has been
updated for the first `n` lines. -/
def Current (updates : List (List UInt8 × Shm.Session)) (x : Read) : Prop :=
  ∃ m, x.replies ≤ updates.length ∧ (updates.take x.replies).map Prod.fst = prog.take x.replies ∧
    run (kstepShmUpdate k) (kstepShmInit k) ((updates.take x.replies).map Prod.snd) = some m ∧
    x.state = decodeRegion m.shm

/-- Between steps. The region is whole unless it is being filled. -/
structure Steady (w : State) : Prop where
  paired : ∃ done todo, Paired prog w.session done todo
  lines : w.updates.map Prod.fst = answered w.session.driver.written ++
    if w.updated then inHand w.session.driver.phase else []
  updated : w.updated = true → inHand w.session.driver.phase ≠ []
  module : run (kstepShmUpdate k) (kstepShmInit k) (w.updates.map Prod.snd) = some w.module
  whole : inHand w.session.driver.phase = [] ∨ w.updated = true → Holds w.mem w.module.shm
  length : w.mem.length = shmSize
  copied : ∀ buf, w.copied = some buf → w.session.pending = none ∧ buf <+: w.mem
  reads : ∀ x ∈ w.reads, Current prog k w.updates x

variable {parse prog k} {w w' : State} {d : Driver.State} {mem : List UInt8}

/-- A driver without a call to answer is not in a command, and every reply has been read. -/
theorem idle {s : Driver.Session} {done todo : List Entry} (h : Paired prog s done todo)
    (hpending : s.pending = none) : inHand s.driver.phase = [] ∧
      answered s.driver.written = prog.take s.returned.length := by
  have hcalls := h.calls
  have hreplies := h.replies
  have hlines := h.lines
  have hnread := h.nread
  have hbound := h.bound
  have hsplit : (answered s.driver.written).length =
      (answered done).length + (answered todo).length := by
    rw [h.written, answered_append, List.length_append]
  have hlen := congrArg List.length hlines
  simp only [hpending, Option.isSome_none, Bool.false_eq_true, if_false] at hcalls
  rw [List.length_append, List.length_take] at hlen
  have hhand : inHand s.driver.phase = [] := List.eq_nil_of_length_eq_zero (by omega)
  have hread : s.nread = s.returned.length := by
    rw [hhand, List.length_nil] at hlen
    omega
  rw [hhand, List.append_nil, hread] at hlines
  exact ⟨hhand, hlines⟩

/-- A step of the session answers the line in hand, or it answers none and only a free driver takes
one in hand. -/
inductive Serves (s s' : Driver.Session) : Driver.Label → Prop
  | close (a : Answers) (hhand : inHand s'.driver.phase = [])
      (hanswered : answered s'.driver.written =
        answered s.driver.written ++ inHand s.driver.phase) : Serves s s' (.driver (.close a))
  | none (e : Driver.Label) (hclose : ∀ a, e ≠ .driver (.close a))
      (hhand : inHand s.driver.phase = [] ∨ inHand s'.driver.phase = inHand s.driver.phase)
      (hanswered : answered s'.driver.written = answered s.driver.written) : Serves s s' e

theorem answered_concat_event (o : Opened) (e : Event) (ws : List Entry) :
    answered (ws ++ [⟨o, .event e⟩]) = answered ws := by
  rw [answered_append, answered_event rfl, List.append_nil]

theorem driver_serves {s : Driver.Session} {a : Driver.Act} (hboot : s.driver.phase ≠ .boot)
    (h : Driver.Move s.driver a d) (nread : ℕ) (output : List Char) :
    Serves s { s with driver := d, nread := nread, output := output } (.driver a) := by
  cases h with
  | ready shm cov hphase => exact absurd hphase hboot
  | skip => exact .none _ (fun a h => by cases h) (Or.inr rfl) rfl
  | begin bytes v line hphase =>
      refine .none _ (fun a h => by cases h) (Or.inl ?_) rfl
      rw [hphase]
      rfl
  | tick b hphase =>
      refine .none _ (fun a h => by cases h) (Or.inr ?_) rfl
      rw [hphase]
      rfl
  | eventBegin => exact .none _ (fun a h => by cases h) (Or.inr rfl) rfl
  | eventEnd i event o =>
      exact .none _ (fun a h => by cases h) (Or.inr rfl) (answered_concat_event o event _)
  | close a b fields hphase =>
      refine .close a ?_ ?_
      · dsimp only
        split_ifs <;> rfl
      · rw [hphase]
        exact answered_append _ _

theorem session_serves_step {s s' : Driver.Session} {e : Driver.Label}
    (hboot : s.driver.phase ≠ .boot) (h : s.step parse prog e = some s') : Serves s s' e := by
  unfold Session.step at h
  split at h
  · split_ifs at h
    cases h
    exact .none _ (fun a h => by cases h) (Or.inr rfl) rfl
  · split_ifs at h
    obtain ⟨d, hd, rfl⟩ := Option.map_eq_some_iff.mp h
    exact driver_serves hboot (State.step_cases hd) _ _
  · obtain ⟨d, hd, rfl⟩ := Option.map_eq_some_iff.mp h
    exact driver_serves hboot (State.step_cases hd) _ _
  · have hsame (events : List Object) (line rest : List Char) :
        Serves s (s.receive parse events line rest) .recv := by
      have hdriver := Session.receive_driver parse s events line rest
      exact .none _ (fun a h => by cases h) (Or.inr (by rw [hdriver])) (by rw [hdriver])
    split at h
    · cases h
      exact hsame _ _ _
    · split at h
      · cases h
        exact .none _ (fun a h => by cases h) (Or.inr rfl) rfl
      · cases h
    · cases h

/-- What is read stays current when the region is updated for later lines. -/
theorem Current.append {us : List (List UInt8 × Shm.Session)} {x : Read}
    (h : Current prog k w.updates x) : Current prog k (w.updates ++ us) x := by
  obtain ⟨m, hle, hrest⟩ := h
  refine ⟨m, ?_, ?_⟩
  · rw [List.length_append]
    omega
  · rw [List.take_append_of_le_length hle]
    exact hrest

/-- While the region may be filled, a call of the host is in progress. -/
theorem Steady.copied_none (h : Steady prog k w) (hsettled : w.settled ≠ none) :
    w.copied = none ∧ inHand w.session.driver.phase ≠ [] ∧ w.updated = false := by
  obtain ⟨done, todo, hpaired⟩ := h.paired
  unfold State.settled at hsettled
  split at hsettled
  · rename_i b hphase
    split_ifs at hsettled with hcond
    · have hhand : inHand w.session.driver.phase ≠ [] := by
        rw [hphase]
        exact List.cons_ne_nil _ _
      refine ⟨?_, hhand, hcond.2⟩
      rcases hcopied : w.copied with _ | buf
      · rfl
      · exact absurd (idle hpaired (h.copied buf hcopied).1).1 hhand
    · exact absurd rfl hsettled
  · exact absurd rfl hsettled

theorem Steady.store (h : Steady prog k w) (hsettled : w.settled ≠ none)
    (hlen : mem.length = shmSize) : Steady prog k { w with mem := mem } := by
  obtain ⟨hcopied, hhand, hupdated⟩ := h.copied_none hsettled
  refine ⟨h.paired, h.lines, h.updated, h.module, fun hwhole => ?_, hlen, fun buf hbuf => ?_,
    h.reads⟩
  · rcases hwhole with hnil | hyes
    · exact absurd hnil hhand
    · exact absurd (hupdated.symm.trans hyes) Bool.noConfusion
  · rw [hcopied] at hbuf
    cases hbuf

theorem Steady.update (h : Steady prog k w) {line : List UInt8} {s : Shm.Session} {m : Module}
    (hsettled : w.settled = some line) (hupdate : kstepShmUpdate k w.module s = some m)
    (hmem : Holds mem m.shm) :
    Steady prog k { w with
      module := m
      mem := mem
      updated := true
      updates := w.updates ++ [(line, s)] } := by
  obtain ⟨hcopied, hhand, hupdated⟩ := h.copied_none (by rw [hsettled]; exact Option.some_ne_none _)
  have hline : inHand w.session.driver.phase = [line] := by
    unfold State.settled at hsettled
    split at hsettled
    · rename_i b hphase
      split_ifs at hsettled
      cases hsettled
      rw [hphase]
      rfl
    · cases hsettled
  have hlines := h.lines
  rw [hupdated, if_neg Bool.false_ne_true, List.append_nil] at hlines
  refine ⟨h.paired, ?_, fun _ => hhand, ?_, fun _ => hmem, hmem.1, fun buf hbuf => ?_,
    fun x hx => (h.reads x hx).append⟩
  · simp only [List.map_append, hlines, List.map_cons, List.map_nil, if_true, hline]
  · rw [List.map_append, run_append h.module]
    simp only [List.map_cons, List.map_nil, run, hupdate]
  · rw [hcopied] at hbuf
    cases hbuf

theorem Steady.readEnd (h : Steady prog k w) {buf : List UInt8} (hbuf : w.copied = some buf)
    (hfull : buf.length = shmSize) :
    Steady prog k { w with
      copied := none
      reads := w.reads ++ [⟨w.session.returned.length, decodeBytes buf⟩] } := by
  obtain ⟨done, todo, hpaired⟩ := h.paired
  obtain ⟨hpending, hprefix⟩ := h.copied buf hbuf
  obtain ⟨hhand, hanswered⟩ := idle hpaired hpending
  have hall : buf = w.mem := hprefix.eq_of_length (hfull.trans h.length.symm)
  obtain ⟨-, hread⟩ := h.whole (Or.inl hhand)
  have hupdated : w.updated = false := by
    by_contra hyes
    exact h.updated (Bool.not_eq_false _ ▸ hyes) hhand
  have hlines := h.lines
  rw [hupdated, if_neg Bool.false_ne_true, List.append_nil, hanswered] at hlines
  have hlen : w.updates.length = w.session.returned.length := by
    have hcalls := hpaired.calls
    have hbound := hpaired.bound
    have := congrArg List.length hlines
    simp only [hpending, Option.isSome_none, Bool.false_eq_true, if_false] at hcalls
    rw [List.length_map, List.length_take] at this
    omega
  refine ⟨h.paired, h.lines, h.updated, h.module, h.whole, h.length, fun b hb => ?_, fun x hx => ?_⟩
  · cases hb
  · rcases List.mem_append.mp hx with hx | hx
    · exact h.reads x hx
    · obtain rfl := List.mem_singleton.mp hx
      refine ⟨w.module, hlen.ge, ?_, ?_, ?_⟩
      · rw [← hlen, List.take_length, hlines, hlen]
      · rw [← hlen, List.take_length]
        exact h.module
      · rw [decodeBytes, decode, if_neg (by rw [hfull]; exact lt_irrefl _), hall, hread]

theorem copy_prefix {buf : List UInt8} (h : buf <+: mem) (n : ℕ) :
    buf ++ (mem.drop buf.length).take n <+: mem := by
  obtain ⟨rest, rfl⟩ := h
  rw [List.drop_left, List.prefix_append_right_inj]
  exact List.take_prefix n rest

/-- A step of the session does what its sides do; the guards keep them apart. -/
theorem sessionStep_cases {e : Driver.Label} (h : sessionStep parse prog w e = some w') :
    ∃ s, w.session.step parse prog e = some s ∧
      ((∃ a, e = .driver (.close a)) ∧ w.updated = true ∧
          w' = { w with session := s, updated := false } ∨
        (∀ a, e ≠ .driver (.close a)) ∧ (e = .cmd → w.copied = none) ∧
          w' = { w with session := s }) := by
  unfold sessionStep at h
  split at h
  · split_ifs at h with hcopied
    obtain ⟨s, hs, rfl⟩ := Option.map_eq_some_iff.mp h
    exact ⟨s, hs, Or.inr ⟨(fun a h => by cases h), fun _ => hcopied, rfl⟩⟩
  · rename_i a
    split_ifs at h with hupdated
    obtain ⟨s, hs, rfl⟩ := Option.map_eq_some_iff.mp h
    exact ⟨s, hs, Or.inl ⟨⟨a, rfl⟩, hupdated, rfl⟩⟩
  · rename_i hcmd hclose
    obtain ⟨s, hs, rfl⟩ := Option.map_eq_some_iff.mp h
    exact ⟨s, hs, Or.inr ⟨hclose, fun h => absurd h hcmd, rfl⟩⟩

/-- Only a call takes the host out of its rest. -/
theorem step_pending {s s' : Driver.Session} {e : Driver.Label} (h : s.step parse prog e = some s')
    (hpending : s.pending = none) (hcmd : e ≠ .cmd) : s'.pending = none := by
  unfold Session.step at h
  split at h
  · exact absurd rfl hcmd
  · split_ifs at h
    obtain ⟨d, -, rfl⟩ := Option.map_eq_some_iff.mp h
    exact hpending
  · obtain ⟨d, -, rfl⟩ := Option.map_eq_some_iff.mp h
    exact hpending
  · rw [hpending] at h
    cases h

theorem Steady.session (hparse : ReadsRecords parse) (hprog : ValidLines prog)
    (hbounded : w.session.driver.Bounded) (h : Steady prog k w) {e : Driver.Label}
    (hstep : sessionStep parse prog w e = some w') : Steady prog k w' := by
  obtain ⟨done, todo, hpaired⟩ := h.paired
  obtain ⟨s, hs, hcase⟩ := sessionStep_cases hstep
  have hpaired' := step_paired hparse hprog hbounded hpaired hs
  have hserves := session_serves_step hpaired.boot hs
  have hcopied (hcmd : e = .cmd → w.copied = none) (buf : List UInt8)
      (hbuf : w.copied = some buf) : s.pending = none ∧ buf <+: w.mem := by
    obtain ⟨hpending, hprefix⟩ := h.copied buf hbuf
    refine ⟨step_pending hs hpending fun he => ?_, hprefix⟩
    rw [hcmd he] at hbuf
    cases hbuf
  rcases hcase with ⟨⟨a, rfl⟩, hupdated, rfl⟩ | ⟨hclose, hcmd, rfl⟩
  · cases hserves with
    | close a hhand hanswered =>
        have hlines := h.lines
        rw [if_pos hupdated] at hlines
        exact {
          paired := hpaired'
          lines := by
            rw [hanswered]
            simpa using hlines
          updated := fun hyes => by cases hyes
          module := h.module
          whole := fun _ => h.whole (Or.inr hupdated)
          length := h.length
          copied := hcopied fun he => by cases he
          reads := h.reads }
    | none _ hclose => exact absurd rfl (hclose a)
  · cases hserves with
    | close a => exact absurd rfl (hclose a)
    | none _ _ hhand hanswered =>
        have hkept (hyes : w.updated = true) :
            inHand s.driver.phase = inHand w.session.driver.phase :=
          hhand.resolve_left (h.updated hyes)
        refine ⟨hpaired', ?_, fun hyes => ?_, h.module, fun hwhole => ?_, h.length, hcopied hcmd,
          h.reads⟩
        · rw [hanswered, h.lines]
          split_ifs with hyes
          · rw [hkept hyes]
          · rfl
        · rw [hkept hyes]
          exact h.updated hyes
        · rcases hwhole with hnil | hyes
          · refine h.whole (Or.inl ?_)
            rcases hhand with hnone | hsame
            · exact hnone
            · rw [← hsame]
              exact hnil
          · exact h.whole (Or.inr hyes)

variable (parse prog k) in
/-- Everything a step can do. -/
inductive Move (w : State) : State → Prop
  | session (e : Driver.Label) (w' : State) (hstep : sessionStep parse prog w e = some w') : Move w w'
  | store (mem : List UInt8) (hsettled : w.settled ≠ none) (hlen : mem.length = shmSize) :
      Move w { w with mem := mem }
  | update (s : Shm.Session) (mem line : List UInt8) (m : Module) (hsettled : w.settled = some line)
      (hupdate : kstepShmUpdate k w.module s = some m) (hmem : Holds mem m.shm) :
      Move w { w with
        module := m
        mem := mem
        updated := true
        updates := w.updates ++ [(line, s)] }
  | readBegin (hpending : w.session.pending = none) (hcopied : w.copied = none) :
      Move w { w with copied := some [] }
  | copy (n : ℕ) (buf : List UInt8) (hbuf : w.copied = some buf) :
      Move w { w with copied := some (buf ++ (w.mem.drop buf.length).take n) }
  | readEnd (buf : List UInt8) (hbuf : w.copied = some buf) (hfull : buf.length = shmSize) :
      Move w { w with
        copied := none
        reads := w.reads ++ [⟨w.session.returned.length, decodeBytes buf⟩] }

theorem step_move {e : Label} (h : step parse prog k w e = some w') : Move parse prog k w w' := by
  cases e with
  | session e => exact .session e w' h
  | store mem =>
      simp only [step] at h
      split_ifs at h with hcond
      cases h
      exact .store mem hcond.1 hcond.2
  | update s mem =>
      simp only [step] at h
      split at h
      · rename_i line m hsettled hupdate
        split_ifs at h with hmem
        cases h
        exact .update s mem line m hsettled hupdate hmem
      · cases h
  | readBegin =>
      simp only [step] at h
      split_ifs at h with hcond
      cases h
      exact .readBegin (Option.isNone_iff_eq_none.mp hcond.1) hcond.2
  | copy n =>
      obtain ⟨buf, hbuf, rfl⟩ := Option.map_eq_some_iff.mp h
      exact .copy n buf hbuf
  | readEnd =>
      simp only [step] at h
      split at h
      · rename_i buf hbuf
        split_ifs at h with hfull
        cases h
        exact .readEnd buf hbuf hfull
      · cases h

theorem steady_step (hparse : ReadsRecords parse) (hprog : ValidLines prog) {e : Label}
    (hstep : step parse prog k w e = some w') (hbounded : w.session.driver.Bounded)
    (h : Steady prog k w) : Steady prog k w' := by
  cases step_move hstep with
  | session e _ hstep => exact h.session hparse hprog hbounded hstep
  | store mem hsettled hlen => exact h.store hsettled hlen
  | update s mem line m hsettled hupdate hmem => exact h.update hsettled hupdate hmem
  | readBegin hpending hcopied =>
      refine ⟨h.paired, h.lines, h.updated, h.module, h.whole, h.length, fun buf hbuf => ?_,
        h.reads⟩
      cases hbuf
      exact ⟨hpending, List.nil_prefix⟩
  | copy n buf hbuf =>
      obtain ⟨hpending, hprefix⟩ := h.copied buf hbuf
      refine ⟨h.paired, h.lines, h.updated, h.module, h.whole, h.length, fun buf' hbuf' => ?_,
        h.reads⟩
      cases hbuf'
      exact ⟨hpending, copy_prefix hprefix n⟩
  | readEnd buf hbuf hfull => exact h.readEnd hbuf hfull

/-- Only a step of the session writes records. -/
theorem bounded_of_step {e : Label} (hstep : step parse prog k w e = some w')
    (h : w'.session.driver.Bounded) : w.session.driver.Bounded := by
  cases step_move hstep with
  | session e _ hstep =>
      obtain ⟨s, hs, ⟨-, -, rfl⟩ | ⟨-, -, rfl⟩⟩ := sessionStep_cases hstep
      · exact Session.bounded_of_step hs h
      · exact Session.bounded_of_step hs h
  | store => exact h
  | update => exact h
  | readBegin => exact h
  | copy => exact h
  | readEnd => exact h

theorem steady_start (hphase : d.phase = .reading) (hwritten : d.written = [])
    (hmem : Holds mem (kstepShmInit k).shm) : Steady prog k (State.start k d mem) where
  paired := ⟨[], [], paired_start hphase hwritten⟩
  lines := by simp [State.start, Session.start, hwritten, answered]
  updated h := by cases h
  module := rfl
  whole _ := hmem
  length := hmem.1
  copied buf h := by cases h
  reads x hx := by cases hx

theorem layout_of_run {sessions : List Shm.Session} {m : Module} (hfits : ∀ s ∈ sessions, s.Fits)
    (h : run (kstepShmUpdate k) (kstepShmInit k) sessions = some m) :
    m.shm.hdr.layout = kstepShmLayout := by
  refine run_invariant_of_always (P := fun _ s => Shm.Session.Fits s)
    (I := fun m => m.shm.hdr.layout = kstepShmLayout) (fun m s m' hfit hm hlayout => ?_) h
    (always_of_forall (fun s hs _ => hfits s hs) _) rfl
  obtain ⟨u, hu, hfilled⟩ := exists_kstepShmUpdate (k := k) hlayout hfit
  rw [Option.some.inj (hm.symm.trans hu)]
  exact hfilled.layout

theorem decodeRegion_init (k : Kernel) : ∃ st, decodeRegion (kstepShmInit k).shm = .ok st :=
  ⟨_, rfl⟩

/-- After updates of sessions that fit, what is decoded reports the last of them. -/
theorem reports_of_run {us : List (List UInt8 × Shm.Session)} {m : Module}
    (hfits : ∀ u ∈ us, u.2.Fits)
    (h : run (kstepShmUpdate k) (kstepShmInit k) (us.map Prod.snd) = some m) :
    ∃ st, decodeRegion m.shm = .ok st ∧ ∀ u, us.getLast? = some u → Reports k u.2 m.shm st := by
  rcases us.eq_nil_or_concat with rfl | ⟨us, u, rfl⟩
  · cases h
    obtain ⟨st, hst⟩ := decodeRegion_init k
    exact ⟨st, hst, fun u hu => by cases hu⟩
  · rw [List.concat_eq_append] at h hfits ⊢
    rw [List.map_append] at h
    obtain ⟨m', hm', hlast⟩ := run_concat h
    have hlayout : m'.shm.hdr.layout = kstepShmLayout := by
      refine layout_of_run (fun s hs => ?_) hm'
      obtain ⟨u', hu', rfl⟩ := List.mem_map.mp hs
      exact hfits u' (List.mem_append_left _ hu')
    obtain ⟨v, hv, hfilled⟩ := exists_kstepShmUpdate (k := k) hlayout (hfits u (by simp))
    obtain rfl := Option.some.inj (hlast.symm.trans hv)
    obtain ⟨st, hst, hreports⟩ := exists_decodeRegion (hfits u (by simp)) hfilled
    refine ⟨st, hst, fun u' hu' => ?_⟩
    rw [List.getLast?_concat] at hu'
    cases hu'
    exact hreports

/-- In every session, however the host's reading, the kernel's events and the driver's steps fall,
whatever `Session::state` returns is decoded from the region as the driver left it for the last line
answered; and it is a state that reports the session of that update, if it and those before fit. -/
theorem state_of_last_reply (hparse : ReadsRecords parse) (hprog : ValidLines prog)
    (hphase : d.phase = .reading) (hwritten : d.written = [])
    (hmem : Holds mem (kstepShmInit k).shm) {l : List Label}
    (h : run (step parse prog k) (State.start k d mem) l = some w)
    (hbounded : w.session.driver.Bounded) :
    ∀ x ∈ w.reads, ∃ us m, us <+: w.updates ∧ us.map Prod.fst = prog.take x.replies ∧
      run (kstepShmUpdate k) (kstepShmInit k) (us.map Prod.snd) = some m ∧
      x.state = decodeRegion m.shm ∧
      ((∀ u ∈ us, u.2.Fits) → ∃ st, x.state = .ok st ∧
        ∀ u, us.getLast? = some u → Reports k u.2 m.shm st) := by
  have hsteady : Steady prog k w :=
    run_invariant_of_end (fun _ _ _ => bounded_of_step)
      (fun _ _ _ => steady_step hparse hprog) h hbounded (steady_start hphase hwritten hmem)
  intro x hx
  obtain ⟨m, -, hlines, hrun, hstate⟩ := hsteady.reads x hx
  refine ⟨w.updates.take x.replies, m, List.take_prefix _ _, hlines, hrun, hstate, fun hfits => ?_⟩
  rw [hstate]
  exact reports_of_run hfits hrun

/-- The host can always read when it has no call to wait for. -/
theorem run_read {w : State} (hpending : w.session.pending = none) (hcopied : w.copied = none)
    (hlen : w.mem.length = shmSize) :
    run (step parse prog k) w [.readBegin, .copy shmSize, .readEnd] = some { w with
      copied := none
      reads := w.reads ++ [⟨w.session.returned.length, decodeBytes w.mem⟩] } := by
  have hall : ([] : List UInt8) ++ (w.mem.drop ([] : List UInt8).length).take shmSize = w.mem := by
    rw [List.nil_append, List.length_nil, List.drop_zero, ← hlen, List.take_length]
  simp only [run, step, hpending, hcopied, Option.isNone_none, and_self, if_true, Option.map_some,
    hall, hlen]

theorem run_update {w : State} {s : Shm.Session} {line : List UInt8} {m : Module}
    (hsettled : w.settled = some line) (hupdate : kstepShmUpdate k w.module s = some m)
    (hmem : Holds mem m.shm) :
    run (step parse prog k) w [.update s mem] = some { w with
      module := m
      mem := mem
      updated := true
      updates := w.updates ++ [(line, s)] } := by
  simp only [run, step, hsettled, hupdate, if_pos hmem]

def stored (r : Region) : List UInt8 := CLayout.region.put r (List.replicate shmSize 0) 0

theorem holds_stored (r : Region) : Holds (stored r) r := by
  have hlen : (List.replicate shmSize (0 : UInt8)).length = shmSize := List.length_replicate
  refine ⟨(CLayout.region.length_put r _ 0).trans hlen, ?_⟩
  rw [← CLayout.region_get, stored, CLayout.region.get_put r _ 0 (by rw [hlen, Nat.zero_add]; rfl)]

/-- Without a reply to close, the session runs on its own. -/
theorem run_session {w : State} {s : Driver.Session} {l : List Driver.Label}
    (hcopied : w.copied = none) (hclose : ∀ e ∈ l, ∀ a, e ≠ .driver (.close a))
    (h : run (Driver.Session.step parse prog) w.session l = some s) :
    run (step parse prog k) w (l.map .session) = some { w with session := s } := by
  induction l generalizing w with
  | nil =>
      cases h
      rfl
  | cons e l ih =>
      obtain ⟨u, hu, hrun⟩ := run_cons h
      have hstep : sessionStep parse prog w e = some { w with session := u } := by
        unfold sessionStep
        split
        · rw [if_pos hcopied, hu]
          rfl
        · exact absurd rfl (hclose _ List.mem_cons_self _)
        · rw [hu]
          rfl
      simp only [List.map_cons, run, step, hstep]
      exact ih hcopied (fun e he => hclose e (List.mem_cons_of_mem _ he)) hrun

theorem run_close {w : State} {s : Driver.Session} {a : Answers} (hupdated : w.updated = true)
    (h : w.session.step parse prog (.driver (.close a)) = some s) :
    run (step parse prog k) w [.session (.driver (.close a))] =
      some { w with session := s, updated := false } := by
  simp only [run, step, sessionStep, if_pos hupdated, h, Option.map_some]

/-- A call of the host: its line is executed, the region updated, and the reply closed and read. -/
theorem run_call {w : State} {s t u : Driver.Session} {b : Busy} {l l' : List Driver.Label}
    {x : Shm.Session} {m : Module} {a : Answers} (hcopied : w.copied = none)
    (hupdated : w.updated = false) (hl : ∀ e ∈ l, ∀ a, e ≠ .driver (.close a))
    (hl' : ∀ e ∈ l', ∀ a, e ≠ .driver (.close a))
    (hsent : run (Driver.Session.step parse prog) w.session l = some s)
    (hphase : s.driver.phase = .busy b) (hticks : b.ticks = 0)
    (hupdate : kstepShmUpdate k w.module x = some m) (hmem : Holds mem m.shm)
    (hclose : s.step parse prog (.driver (.close a)) = some t)
    (hrecv : run (Driver.Session.step parse prog) t l' = some u) :
    ∃ w', run (step parse prog k) w (l.map .session ++ ([.update x mem] ++
        ([.session (.driver (.close a))] ++ l'.map .session))) = some w' ∧
      w'.session = u ∧ w'.copied = none ∧ w'.mem = mem ∧
        w'.updates = w.updates ++ [(b.bytes, x)] := by
  have hsettled : State.settled { w with session := s } = some b.bytes := by
    simp only [State.settled, hphase, hticks, hupdated, and_self, if_true]
  rw [run_append (run_session hcopied hl hsent), run_append (run_update hsettled hupdate hmem),
    run_append (run_close rfl hclose)]
  exact ⟨_, run_session hcopied hl' hrecv, rfl, hcopied, rfl, rfl⟩

def tickSent : List Driver.Label :=
  [.cmd, .driver (.readline [116, 105, 99, 107] Cli.plainView), .driver .tick]

/-- The session's part of the call of `tick`. -/
theorem exists_tick : ∃ s t u b,
    run (Driver.Session.step readObject tickThenExit) (Session.start ⟨0, .reading, 1, [], []⟩)
        tickSent = some s ∧
      s.driver.phase = .busy b ∧ b.ticks = 0 ∧
      s.step readObject tickThenExit (.driver (.close fourCpuAnswers)) = some t ∧
      run (Driver.Session.step readObject tickThenExit) t [.recv] = some u ∧
      u.pending = none ∧ u.returned.length = 1 ∧ u.driver.Bounded :=
  ⟨_, _, _, _, rfl, rfl, rfl, rfl, rfl, rfl, rfl, by decide⟩

theorem state_of_last_reply_tick : ∃ l w x m st,
    run (step readObject tickThenExit someKernel)
      (State.start someKernel ⟨0, .reading, 1, [], []⟩ (stored (kstepShmInit someKernel).shm)) l =
        some w ∧
      x ∈ w.reads ∧ x.replies = 1 ∧ x.state = .ok st ∧ Reports someKernel someSession m st := by
  have hfits : someSession.Fits := ⟨by decide, by decide⟩
  obtain ⟨m, hm, -⟩ :=
    exists_kstepShmUpdate (k := someKernel) (m := kstepShmInit someKernel) rfl hfits
  obtain ⟨s, t, u, b, hsent, hphase, hticks, hclose, hrecv, hpending, hreturned, hbounded⟩ :=
    exists_tick
  obtain ⟨w, hcall, hsession, hcopied, hmem, hupdates⟩ := run_call (w := State.start someKernel
    ⟨0, .reading, 1, [], []⟩ (stored (kstepShmInit someKernel).shm)) rfl rfl (by simp [tickSent])
      (by simp) hsent hphase hticks hm (holds_stored m.shm) hclose hrecv
  have hlen : w.mem.length = shmSize := by
    rw [hmem]
    exact (holds_stored m.shm).1
  have hrun := (run_append hcall).trans (run_read (by rw [hsession, hpending]) hcopied hlen)
  rw [← hsession] at hbounded
  have hlast : Read.mk w.session.returned.length (decodeBytes w.mem) ∈
      w.reads ++ [⟨w.session.returned.length, decodeBytes w.mem⟩] := by simp
  have hall := @state_of_last_reply readObject tickThenExit someKernel _ ⟨0, .reading, 1, [], []⟩
    (stored (kstepShmInit someKernel).shm) readsRecords_readObject validLines_tickThenExit rfl rfl
    (holds_stored _) _ hrun hbounded
  obtain ⟨us, m', hprefix, hlines, -, -, hok⟩ := hall _ hlast
  have hreplies : w.session.returned.length = 1 := by rw [hsession, hreturned]
  have hone : us.length = 1 := by
    have hcount := congrArg List.length hlines
    rw [hreplies] at hcount
    simpa [tickThenExit] using hcount
  have hus : us = [(b.bytes, someSession)] := by
    have hsame : us <+: [(b.bytes, someSession)] := by
      rw [← List.nil_append [(b.bytes, someSession)]]
      exact hupdates ▸ hprefix
    exact hsame.eq_of_length hone
  subst hus
  obtain ⟨st, hst, hreports⟩ := hok fun x hx => by
    rw [List.mem_singleton.mp hx]
    exact hfits
  exact ⟨_, _, _, m'.shm, st, hrun, hlast, hreplies, hst, hreports _ rfl⟩

end KStep.StateReads
