import KStep.Driver

/-!
# Timestamps of the records

Timestamps follow the order in which records are opened. A reply is opened before its command is
executed and written after it, so the records a command's ticks bring about are written before the
reply and carry later timestamps.
-/

namespace KStep.Driver

open Runs

def State.records (d : State) : List Opened :=
  (match d.phase with
    | .busy b => [b.reply]
    | _ => []) ++ d.opened ++ d.written.map Entry.toOpened

structure Dated (d : State) : Prop where
  now : ∀ o ∈ d.records, o.timestamp ≤ d.jiffies ∧ o.number < d.begun
  order : ∀ o ∈ d.records, ∀ p ∈ d.records, o.number ≤ p.number → o.timestamp ≤ p.timestamp

structure RepliesInOrder (d : State) : Prop where
  written : (d.written.filter (·.kind.isReply)).Pairwise fun x y => x.number ≤ y.number
  busy : ∀ b, d.phase = .busy b → ∀ x ∈ d.written, x.number ≤ b.reply.number ∨ ¬x.kind.isReply

/-- No tick falls between the begin and the end of an event record. -/
def Quiet (d : State) (e : Act) : Prop := e = .tick → d.opened = []

variable {d d' : State} {e : Act} {l : List Act}

theorem mem_records {o : Opened} : o ∈ d.records ↔
    (∃ b, d.phase = .busy b ∧ o = b.reply) ∨ o ∈ d.opened ∨ ∃ x ∈ d.written, x.toOpened = o := by
  rcases hphase : d.phase with _ | _ | b | _
  · simp [State.records, hphase]
  · simp [State.records, hphase]
  · simp [State.records, hphase]
  · simp [State.records, hphase]

theorem mem_records_written {x : Entry} (h : x ∈ d.written) : x.toOpened ∈ d.records :=
  mem_records.mpr (Or.inr (Or.inr ⟨x, h, rfl⟩))

/-- A step opens at most one record, and that one at the current time. -/
theorem Move.records (h : Move d e d') :
    d.jiffies ≤ d'.jiffies ∧ d.begun ≤ d'.begun ∧
      ∀ o ∈ d'.records, o ∈ d.records ∨ o = d.begin ∧ d.begun < d'.begun := by
  cases h with
  | ready shm cov hphase hwrite =>
      refine ⟨le_rfl, Nat.le_succ _, fun o ho => ?_⟩
      rcases mem_records.mp ho with ⟨b, hb, -⟩ | ho | ⟨x, hx, rfl⟩
      · cases hb
      · exact Or.inl (mem_records.mpr (Or.inr (Or.inl ho)))
      · rcases List.mem_append.mp hx with hx | hx
        · exact Or.inl (mem_records_written hx)
        · rw [List.mem_singleton.mp hx]
          exact Or.inr ⟨rfl, Nat.lt_succ_self _⟩
  | skip bytes v hphase hline => exact ⟨le_rfl, le_rfl, fun o ho => Or.inl ho⟩
  | begin bytes v line hphase hline =>
      refine ⟨le_rfl, Nat.le_succ _, fun o ho => ?_⟩
      rcases mem_records.mp ho with ⟨b, hb, rfl⟩ | ho | ⟨x, hx, rfl⟩
      · cases hb
        exact Or.inr ⟨rfl, Nat.lt_succ_self _⟩
      · exact Or.inl (mem_records.mpr (Or.inr (Or.inl ho)))
      · exact Or.inl (mem_records_written hx)
  | tick b hphase hticks =>
      refine ⟨Nat.le_succ _, le_rfl, fun o ho => Or.inl ?_⟩
      rcases mem_records.mp ho with ⟨b', hb, rfl⟩ | ho | ⟨x, hx, rfl⟩
      · cases hb
        exact mem_records.mpr (Or.inl ⟨b, hphase, rfl⟩)
      · exact mem_records.mpr (Or.inr (Or.inl ho))
      · exact mem_records_written hx
  | eventBegin =>
      refine ⟨le_rfl, Nat.le_succ _, fun o ho => ?_⟩
      rcases mem_records.mp ho with hb | ho | ⟨x, hx, rfl⟩
      · exact Or.inl (mem_records.mpr (Or.inl hb))
      · rcases List.mem_append.mp ho with ho | ho
        · exact Or.inl (mem_records.mpr (Or.inr (Or.inl ho)))
        · exact Or.inr ⟨List.mem_singleton.mp ho, Nat.lt_succ_self _⟩
      · exact Or.inl (mem_records_written hx)
  | eventEnd i event o' hopen hwrite =>
      refine ⟨le_rfl, le_rfl, fun o ho => Or.inl ?_⟩
      rcases mem_records.mp ho with hb | ho | ⟨x, hx, rfl⟩
      · exact mem_records.mpr (Or.inl hb)
      · exact mem_records.mpr (Or.inr (Or.inl (List.mem_of_mem_eraseIdx ho)))
      · rcases List.mem_append.mp hx with hx | hx
        · exact mem_records_written hx
        · rw [List.mem_singleton.mp hx]
          exact mem_records.mpr (Or.inr (Or.inl (List.mem_of_getElem? hopen)))
  | close a b fields hphase hticks hfields hwrite =>
      refine ⟨le_rfl, le_rfl, fun o ho => Or.inl ?_⟩
      rcases mem_records.mp ho with ⟨b', hb, -⟩ | ho | ⟨x, hx, rfl⟩
      · dsimp only at hb
        split_ifs at hb
      · exact mem_records.mpr (Or.inr (Or.inl ho))
      · rcases List.mem_append.mp hx with hx | hx
        · exact mem_records_written hx
        · rw [List.mem_singleton.mp hx]
          exact mem_records.mpr (Or.inl ⟨b, hphase, rfl⟩)

theorem dated_boot : Dated State.boot where
  now o ho := by cases ho
  order o ho := by cases ho

theorem Move.dated (h : Move d e d') (hd : Dated d) : Dated d' := by
  obtain ⟨hjiffies, hbegun, hrecords⟩ := h.records
  refine ⟨fun o ho => ?_, fun o ho p hp hle => ?_⟩
  · rcases hrecords o ho with hold | ⟨rfl, hnew⟩
    · obtain ⟨htime, hnumber⟩ := hd.now o hold
      exact ⟨htime.trans hjiffies, hnumber.trans_le hbegun⟩
    · exact ⟨hjiffies, hnew⟩
  · rcases hrecords o ho with hold | ⟨rfl, -⟩ <;> rcases hrecords p hp with hold' | ⟨rfl, -⟩
    · exact hd.order o hold p hold' hle
    · exact (hd.now o hold).1
    · exact absurd (hd.now p hold').2 (not_lt.mpr hle)
    · exact le_rfl

theorem repliesInOrder_boot : RepliesInOrder State.boot where
  written := .nil
  busy b hb := by cases hb

/-- A record that is not a reply does not change the order of the replies. -/
theorem filter_isReply_concat {ws : List Entry} {x : Entry} (h : x.kind.isReply = false) :
    (ws ++ [x]).filter (·.kind.isReply) = ws.filter (·.kind.isReply) := by
  rw [List.filter_append, List.filter_cons_of_neg (by simp [h]), List.filter_nil, List.append_nil]

theorem Move.repliesInOrder (h : Move d e d') (hd : Dated d) (hr : RepliesInOrder d) :
    RepliesInOrder d' := by
  cases h with
  | ready shm cov hphase hwrite =>
      refine ⟨?_, fun b hb => by cases hb⟩
      rw [filter_isReply_concat rfl]
      exact hr.written
  | skip bytes v hphase hline => exact hr
  | begin bytes v line hphase hline =>
      refine ⟨hr.written, fun b hb x hx => Or.inl ?_⟩
      cases hb
      exact (hd.now _ (mem_records_written hx)).2.le
  | tick b hphase hticks =>
      refine ⟨hr.written, fun b' hb x hx => ?_⟩
      cases hb
      exact hr.busy b hphase x hx
  | eventBegin => exact ⟨hr.written, hr.busy⟩
  | eventEnd i event o hopen hwrite =>
      refine ⟨?_, fun b hb x hx => ?_⟩
      · rw [filter_isReply_concat rfl]
        exact hr.written
      · rcases List.mem_append.mp hx with hx | hx
        · exact hr.busy b hb x hx
        · rw [List.mem_singleton.mp hx]
          exact Or.inr (by simp [Kind.isReply])
  | close a b fields hphase hticks hfields hwrite =>
      refine ⟨?_, fun b' hb => ?_⟩
      · rw [List.filter_append, List.pairwise_append]
        refine ⟨hr.written, by simp [Kind.isReply], fun x hx y hy => ?_⟩
        obtain ⟨hmem, hreply⟩ := List.mem_filter.mp hx
        rw [List.mem_singleton.mp (List.mem_of_mem_filter hy)]
        exact (hr.busy b hphase x hmem).resolve_right (by simpa using hreply)
      · dsimp only at hb
        split_ifs at hb

/-- The ready line is written before the first tick. -/
structure ReadyFirst (d : State) : Prop where
  boot : d.phase = .boot → d.jiffies = 0
  ready : ∀ x ∈ d.written, (∃ shm cov, x.kind = .ready shm cov) → x.timestamp = 0

theorem Move.readyFirst (h : Move d e d') (hr : ReadyFirst d) : ReadyFirst d' := by
  cases h with
  | ready shm cov hphase hwrite =>
      refine ⟨fun hb => (by cases hb), fun x hx hready => ?_⟩
      rcases List.mem_append.mp hx with hx | hx
      · exact hr.ready x hx hready
      · rw [List.mem_singleton.mp hx]
        exact hr.boot hphase
  | skip bytes v hphase hline => exact hr
  | begin bytes v line hphase hline => exact ⟨fun hb => (by cases hb), hr.ready⟩
  | tick b hphase hticks => exact ⟨fun hb => (by cases hb), hr.ready⟩
  | eventBegin => exact ⟨hr.boot, hr.ready⟩
  | eventEnd i event o hopen hwrite =>
      refine ⟨hr.boot, fun x hx hready => ?_⟩
      rcases List.mem_append.mp hx with hx | hx
      · exact hr.ready x hx hready
      · rw [List.mem_singleton.mp hx] at hready
        obtain ⟨shm, cov, hkind⟩ := hready
        cases hkind
  | close a b fields hphase hticks hfields hwrite =>
      refine ⟨fun hb => ?_, fun x hx hready => ?_⟩
      · dsimp only at hb
        split_ifs at hb
      · rcases List.mem_append.mp hx with hx | hx
        · exact hr.ready x hx hready
        · rw [List.mem_singleton.mp hx] at hready
          obtain ⟨shm, cov, hkind⟩ := hready
          cases hkind

/-- While no tick falls into an event record, the open ones carry the current time. -/
structure EventsInOrder (d : State) : Prop where
  opened : ∀ o ∈ d.opened, o.timestamp = d.jiffies
  written : (d.written.filter (!·.kind.isReply)).Pairwise fun x y => x.timestamp ≤ y.timestamp

theorem eventsInOrder_concat {ws : List Entry} {x : Entry} {t : ℕ}
    (hws : (ws.filter (!·.kind.isReply)).Pairwise fun x y => x.timestamp ≤ y.timestamp)
    (hle : ∀ y ∈ ws, y.timestamp ≤ t) (hx : x.kind.isReply = false → x.timestamp = t) :
    ((ws ++ [x]).filter (!·.kind.isReply)).Pairwise fun x y => x.timestamp ≤ y.timestamp := by
  rw [List.filter_append, List.pairwise_append]
  refine ⟨hws, List.Pairwise.filter _ (List.pairwise_singleton _ _), fun y hy z hz => ?_⟩
  obtain ⟨hmem, hkind⟩ := List.mem_filter.mp hz
  rw [List.mem_singleton.mp hmem] at hkind ⊢
  rw [hx (by simpa using hkind)]
  exact hle y (List.mem_of_mem_filter hy)

theorem Move.eventsInOrder (h : Move d e d') (hquiet : Quiet d e) (hd : Dated d)
    (he : EventsInOrder d) : EventsInOrder d' := by
  have hle (x : Entry) (hx : x ∈ d.written) : x.timestamp ≤ d.jiffies :=
    (hd.now _ (mem_records_written hx)).1
  cases h with
  | ready shm cov hphase hwrite =>
      exact ⟨he.opened, eventsInOrder_concat he.written hle fun _ => rfl⟩
  | skip bytes v hphase hline => exact he
  | begin bytes v line hphase hline => exact ⟨he.opened, he.written⟩
  | tick b hphase hticks =>
      refine ⟨fun o ho => ?_, he.written⟩
      rw [hquiet rfl] at ho
      cases ho
  | eventBegin =>
      refine ⟨fun o ho => ?_, he.written⟩
      rcases List.mem_append.mp ho with ho | ho
      · exact he.opened o ho
      · rw [List.mem_singleton.mp ho]
        rfl
  | eventEnd i event o hopen hwrite =>
      refine ⟨fun o' ho => he.opened o' (List.mem_of_mem_eraseIdx ho),
        eventsInOrder_concat he.written hle fun _ => ?_⟩
      exact he.opened o (List.mem_of_getElem? hopen)
  | close a b fields hphase hticks hfields hwrite =>
      exact ⟨he.opened, eventsInOrder_concat he.written hle fun h => by cases h⟩

/-- Timestamps follow the order in which the records are opened, for every placement of events. So
the replies are in order among themselves and none is before the ready line; and the ready line and
the events are in order among themselves when no tick falls into an event record. -/
theorem records_in_order (l : List Act) (d : State) (h : run State.step State.boot l = some d) :
    (∀ x ∈ d.written, ∀ y ∈ d.written, x.number ≤ y.number → x.timestamp ≤ y.timestamp) ∧
    (d.written.filter (·.kind.isReply)).Pairwise (fun x y => x.timestamp ≤ y.timestamp) ∧
    (∀ x ∈ d.written, (∃ shm cov, x.kind = .ready shm cov) →
      ∀ y ∈ d.written, x.timestamp ≤ y.timestamp) ∧
    (Always State.step Quiet State.boot l →
      (d.written.filter (!·.kind.isReply)).Pairwise fun x y => x.timestamp ≤ y.timestamp) := by
  have hsafe : (Dated d ∧ RepliesInOrder d) ∧ ReadyFirst d := by
    refine run_invariant (I := fun d => (Dated d ∧ RepliesInOrder d) ∧ ReadyFirst d) ?_ h
      ⟨⟨dated_boot, repliesInOrder_boot⟩, fun _ => rfl, fun x hx => by cases hx⟩
    rintro d e d' hstep ⟨⟨hd, hr⟩, hready⟩
    have hmove := State.step_cases hstep
    exact ⟨⟨hmove.dated hd, hmove.repliesInOrder hd hr⟩, hmove.readyFirst hready⟩
  obtain ⟨⟨hd, hr⟩, hready⟩ := hsafe
  have horder (x : Entry) (hx : x ∈ d.written) (y : Entry) (hy : y ∈ d.written)
      (hle : x.number ≤ y.number) : x.timestamp ≤ y.timestamp :=
    hd.order _ (mem_records_written hx) _ (mem_records_written hy) hle
  refine ⟨horder, ?_, fun x hx hkind y hy => ?_, fun hquiet => ?_⟩
  · refine hr.written.imp_of_mem fun {x y} hx hy hle => ?_
    exact horder x (List.mem_of_mem_filter hx) y (List.mem_of_mem_filter hy) hle
  · rw [hready.ready x hx hkind]
    exact Nat.zero_le _
  · have hinv : Dated d ∧ EventsInOrder d := by
      refine run_invariant_of_always (I := fun d => Dated d ∧ EventsInOrder d) ?_ h hquiet
        ⟨dated_boot, fun o ho => (by cases ho), .nil⟩
      rintro d e d' hP hstep ⟨hd, he⟩
      have hmove := State.step_cases hstep
      exact ⟨hmove.dated hd, hmove.eventsInOrder hP hd he⟩
    exact hinv.2.written

def balanceInTick : List Act :=
  [.ready 0 0, .readline [116, 105, 99, 107] Cli.plainView, .tick, .eventBegin,
    .eventEnd 0 balanceEvent, .close fourCpuAnswers]

def balanceInTickRecords : List Entry :=
  [⟨⟨0, 0⟩, .ready 0 0⟩, ⟨⟨1, 2⟩, .event balanceEvent⟩,
    ⟨⟨0, 1⟩, .reply [116, 105, 99, 107] []⟩]

theorem run_balanceInTick :
    run State.step State.boot balanceInTick = some ⟨1, .reading, 3, [], balanceInTickRecords⟩ := by
  rfl

theorem records_in_order_balance_in_tick :
    run State.step State.boot balanceInTick = some ⟨1, .reading, 3, [], balanceInTickRecords⟩ ∧
      (balanceInTickRecords.filter (·.kind.isReply)).Pairwise (fun x y =>
        x.timestamp ≤ y.timestamp) ∧
      (balanceInTickRecords.filter (!·.kind.isReply)).Pairwise fun x y =>
        x.timestamp ≤ y.timestamp := by
  have hbusy : run State.step State.boot (balanceInTick.take 2) = some ⟨0,
      .busy ⟨[116, 105, 99, 107], "tick".toList, Cli.plainView, ⟨0, 1⟩, 1⟩, 2, [],
      [⟨⟨0, 0⟩, .ready 0 0⟩]⟩ := rfl
  have htick : run State.step ⟨0,
      .busy ⟨[116, 105, 99, 107], "tick".toList, Cli.plainView, ⟨0, 1⟩, 1⟩, 2, [],
      [⟨⟨0, 0⟩, .ready 0 0⟩]⟩ [.tick] = some ⟨1,
      .busy ⟨[116, 105, 99, 107], "tick".toList, Cli.plainView, ⟨0, 1⟩, 0⟩, 2, [],
      [⟨⟨0, 0⟩, .ready 0 0⟩]⟩ := rfl
  have hquiet : Always State.step Quiet State.boot
      (balanceInTick.take 2 ++ ([.tick] ++ balanceInTick.drop 3)) := by
    refine (always_append hbusy).mpr ⟨always_of_forall (by simp [balanceInTick, Quiet]) _, ?_⟩
    refine (always_append htick).mpr ⟨⟨fun _ => rfl, trivial⟩, ?_⟩
    exact always_of_forall (by simp [balanceInTick, Quiet]) _
  obtain ⟨-, hreplies, -, hevents⟩ := records_in_order balanceInTick _ run_balanceInTick
  exact ⟨run_balanceInTick, hreplies, hevents hquiet⟩

theorem reply_before_its_events : ∃ l d, run State.step State.boot l = some d ∧
    ¬d.written.Pairwise fun x y => x.timestamp ≤ y.timestamp := by
  refine ⟨balanceInTick, _, run_balanceInTick, ?_⟩
  decide

end KStep.Driver
