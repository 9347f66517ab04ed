import KStep.TxPool

/-!
# What the pool and the host keep

Every buffer is on the stack or in flight, once, whatever the calls and the host do. A writer fills
only a buffer it has taken off the stack, so what the host reads is what was written, and in that
order.
-/

namespace KStep.Output

open RowTable Runs

/-- The buffers added to the virtqueue and not handed back. -/
def Chan.inFlight (s : Chan) : List Buf := s.pending.map Prod.fst ++ (s.held ++ s.used)

def Chan.calling (s : Chan) : List (List UInt8) :=
  match s.holder with
  | some (.write data _) => [data]
  | _ => []

/-- The records given to `kstep_io_write`, in the order its calls took the lock. -/
def writes (labels : List Label) : List (List UInt8) :=
  labels.filterMap fun
    | .write data => some data
    | _ => none

/-- Every buffer is free or in flight and not both, and a writer's record fits a buffer. -/
structure Chan.Inv (s : Chan) : Prop where
  split : (s.free.recs ++ s.inFlight).Perm (List.finRange txBufs)
  fits : ∀ data r, s.holder = some (.write data r) → data.length ≤ txBuf

/-- What is on its way: read by the host, added, and with the writer that has the lock. -/
def Chan.records (s : Chan) : List (List UInt8) :=
  s.received ++ (s.pending.map s.record ++ s.calling)

variable {s t : Chan} {e : Label} {labels : List Label} {data : List UInt8} {b : Buf}

theorem take_memcpy (buf : Vector UInt8 txBuf) (h : data.length ≤ txBuf) :
    (memcpy buf data).toList.take data.length = data := by
  have hlen : ((memcpy buf data).toList.take data.length).length = data.length := by
    rw [List.length_take, Vector.length_toList, Nat.min_eq_left h]
  refine List.ext_getElem hlen fun i hi hi' => ?_
  have hget : (memcpy buf data)[i] = data.getD i (buf.get ⟨i, hi'.trans_le h⟩) :=
    Vector.getElem_ofFn (hi'.trans_le h)
  rw [List.getElem_take, Vector.getElem_toList, hget, List.getD_eq_getElem?_getD,
    List.getElem?_eq_getElem hi', Option.getD_some]

/-- A buffer that goes from one place to another is still in one place only. -/
theorem perm_of_count {l l' all : List Buf} (hl : l.Perm all)
    (h : ∀ b, l'.count b = l.count b) : l'.Perm all :=
  (List.perm_iff_count.mpr h).trans hl

theorem Steps.split (h : Steps s e t) (hs : s.Inv) :
    (t.free.recs ++ t.inFlight).Perm (List.finRange txBufs) := by
  refine perm_of_count hs.split fun a => ?_
  cases h with
  | lockWrite => rfl
  | lockDone => rfl
  | unlock => rfl
  | reclaimed => rfl
  | reclaim hused hpush =>
      simp only [Chan.inFlight, hused, Table.push_recs hpush, List.count_append, List.count_cons,
        List.count_nil]
      omega
  | add hholder hpop =>
      simp only [Chan.inFlight, Chan.add, Table.pop_recs hpop, List.map_append, List.map_cons,
        List.map_nil, List.count_append, List.count_cons, List.count_nil]
      omega
  | consume hpending =>
      simp only [Chan.inFlight, hpending, List.map_cons, List.count_append, List.count_cons,
        List.count_nil]
      omega
  | @complete b hheld =>
      have hcount := (List.perm_cons_erase hheld).count_eq a
      simp only [List.count_cons] at hcount
      simp only [Chan.inFlight, List.count_append, List.count_cons, List.count_nil]
      omega

theorem Steps.inv (h : Steps s e t) (hs : s.Inv) : t.Inv := by
  refine ⟨h.split hs, fun data r hdata => ?_⟩
  cases h with
  | lockWrite hfits =>
      cases hdata
      exact hfits
  | lockDone => cases hdata
  | unlock => cases hdata
  | reclaimed hholder =>
      cases hdata
      exact hs.fits _ _ hholder
  | reclaim => exact hs.fits data r hdata
  | add => cases hdata
  | consume => exact hs.fits data r hdata
  | complete => exact hs.fits data r hdata

theorem Chan.Inv.nodup (hs : s.Inv) : (s.free.recs ++ s.inFlight).Nodup :=
  hs.split.nodup_iff.mpr (List.nodup_finRange txBufs)

theorem Chan.Inv.popped_free (hs : s.Inv) {free : Table Buf txBufs}
    (hpop : s.free.pop = some (b, free)) : b ∉ s.inFlight := by
  have hmem : b ∈ s.free.recs := by
    rw [Table.pop_recs hpop]
    exact List.mem_append_right _ (List.mem_singleton_self b)
  exact (List.disjoint_of_nodup_append hs.nodup) hmem

/-- No step writes to a buffer in flight. -/
theorem Steps.mem_eq (h : Steps s e t) (hs : s.Inv) (hb : b ∈ s.inFlight) :
    t.mem b = s.mem b := by
  cases h with
  | add hholder hpop =>
      refine Function.update_of_ne ?_ _ _
      rintro rfl
      exact hs.popped_free hpop hb
  | _ => rfl

theorem record_add_self {free : Table Buf txBufs} (h : data.length ≤ txBuf) :
    (s.add data b free).record (b, data.length) = data := by
  simp only [Chan.record, Chan.add, Function.update_self]
  exact take_memcpy (s.mem b) h

theorem map_record_add {free : Table Buf txBufs} (h : b ∉ s.inFlight) :
    s.pending.map (s.add data b free).record = s.pending.map s.record := by
  refine List.map_congr_left fun r hr => ?_
  have hne : r.1 ≠ b := by
    rintro rfl
    exact h (List.mem_append_left _ (List.mem_map_of_mem hr))
  simp only [Chan.record, Chan.add, Function.update_of_ne hne]

/-- A step hands on the records on their way, and a writer that takes the lock brings its own. -/
theorem Steps.records (h : Steps s e t) (hs : s.Inv) : t.records = s.records ++ writes [e] := by
  have hnone (e : Label) (he : writes [e] = []) (ht : t.records = s.records) :
      t.records = s.records ++ writes [e] := by
    rw [he, List.append_nil, ht]
  cases h with
  | @lockWrite data hfits hholder =>
      simp [Chan.records, Chan.calling, hholder, writes, Chan.record]
  | lockDone hholder =>
      refine hnone _ rfl ?_
      simp [Chan.records, Chan.calling, hholder, Chan.record]
  | unlock hholder =>
      refine hnone _ rfl ?_
      simp [Chan.records, Chan.calling, hholder, Chan.record]
  | reclaimed hholder =>
      refine hnone _ rfl ?_
      simp [Chan.records, Chan.calling, hholder, Chan.record]
  | reclaim => exact hnone _ rfl rfl
  | @add data b free hholder hpop =>
      refine hnone _ rfl ?_
      have hpending : (s.add data b free).pending.map (s.add data b free).record =
          s.pending.map s.record ++ [data] := by
        rw [Chan.add, List.map_append, ← Chan.add, map_record_add (hs.popped_free hpop),
          List.map_singleton, record_add_self (hs.fits _ _ hholder)]
      have hcalling : s.calling = [data] := by rw [Chan.calling, hholder]
      rw [Chan.records, Chan.records, hpending, hcalling]
      simp [Chan.add, Chan.calling]
  | consume hpending =>
      refine hnone _ rfl ?_
      simp [Chan.records, Chan.calling, hpending, Chan.record]
  | complete => exact hnone _ rfl rfl

theorem step_steps (h : step s e = some t) : Steps s e t := by
  apply attempt_steps
  rcases hattempt : attempt s e with stop | u
  · rw [step, hattempt] at h
    cases h
  · rw [step, hattempt] at h
    cases h
    rfl

theorem run_records (h : run step s labels = some t) (hs : s.Inv) :
    t.Inv ∧ t.records = s.records ++ writes labels := by
  induction labels generalizing s with
  | nil =>
      cases h
      exact ⟨hs, (List.append_nil _).symm⟩
  | cons e labels ih =>
      obtain ⟨u, hu, hrun⟩ := run_cons h
      have hstep := step_steps hu
      obtain ⟨ht, hrecords⟩ := ih hrun (hstep.inv hs)
      refine ⟨ht, ?_⟩
      rw [hrecords, hstep.records hs, List.append_assoc]
      exact congrArg _ (List.filterMap_append (l := [e])).symm

/-- After `chan_probe` all buffers are on the stack. -/
theorem exists_chanProbe (mem : Buf → Vector UInt8 txBuf) :
    ∃ free : Table Buf txBufs, chanProbe mem = some ⟨mem, free, [], [], [], [], none⟩ ∧
      free.recs = List.finRange txBufs := by
  obtain ⟨free, hfree, hrecs⟩ := Table.exists_foldlM_push (List.finRange txBufs)
    (Table.fresh (Vector.replicate txBufs (⟨0, by decide⟩ : Buf)))
    (by rw [Table.n_fresh, List.length_finRange, Nat.zero_add])
  rw [Table.recs_fresh, List.nil_append] at hrecs
  refine ⟨free, ?_, hrecs⟩
  simp only [chanProbe, hfree, Option.map_some]

theorem chanProbe_inv {mem : Buf → Vector UInt8 txBuf} (h : chanProbe mem = some s) :
    s.Inv ∧ s.records = [] := by
  obtain ⟨free, hprobe, hrecs⟩ := exists_chanProbe mem
  cases hprobe.symm.trans h
  refine ⟨⟨?_, fun data r hdata => by cases hdata⟩, rfl⟩
  simp [Chan.inFlight, hrecs]

theorem Chan.Inv.no_overrun (hs : s.Inv) (e : Label) : attempt s e ≠ .error .overrun := by
  intro h
  cases attempt_stops h with
  | @overrun b used hused hpush =>
      have hfull : txBufs ≤ s.free.n := by
        unfold Table.push at hpush
        split_ifs at hpush with hroom
        exact Nat.not_lt.mp hroom
      have hlen := hs.split.length_eq
      rw [List.length_append, Table.length_recs, List.length_finRange, Chan.inFlight, hused] at hlen
      simp only [List.length_append, List.length_cons] at hlen
      omega

theorem Chan.Inv.behind (hs : s.Inv) (h : attempt s e = .error (.panic .hostBehind)) :
    s.inFlight.Perm (List.finRange txBufs) := by
  cases attempt_stops h with
  | hostBehind hpop =>
      have hsplit := hs.split
      rw [Table.pop_eq_none hpop, List.nil_append] at hsplit
      exact hsplit

/-- What holds of the pool and the records in a state `s` reached along `labels`. -/
structure Conserved (labels : List Label) (s : Chan) : Prop where
  /-- every buffer is once on the stack or once in flight -/
  split : (s.free.recs ++ s.inFlight).Perm (List.finRange txBufs)
  /-- no step from here stores past the stack -/
  stack : ∀ e, attempt s e ≠ .error .overrun
  /-- or writes to a buffer in flight -/
  untouched : ∀ e t, attempt s e = .ok t → ∀ b ∈ s.inFlight, t.mem b = s.mem b
  /-- the host has read the records written, in order, but for those in the queue and the one of
  the writer that has the lock -/
  delivered : writes labels = s.received ++ (s.pending.map s.record ++ s.calling)
  /-- the panic over a host that does not read comes with all buffers in flight -/
  behind : ∀ e, attempt s e = .error (.panic .hostBehind) →
    s.inFlight.Perm (List.finRange txBufs)

/-- Records are delivered whole and in order from a pool that neither loses nor doubles a
buffer. -/
theorem records_conserved (mem : Buf → Vector UInt8 txBuf) (labels : List Label) (s : Chan)
    (h : (chanProbe mem).bind (run step · labels) = some s) : Conserved labels s := by
  obtain ⟨s₀, hprobe, hrun⟩ := Option.bind_eq_some_iff.mp h
  obtain ⟨hinv, hempty⟩ := chanProbe_inv hprobe
  obtain ⟨hs, hrecords⟩ := run_records hrun hinv
  rw [hempty, List.nil_append] at hrecords
  exact ⟨hs.split, hs.no_overrun, fun e t ht b hb => (attempt_steps ht).mem_eq hs hb,
    hrecords.symm, fun e he => hs.behind he⟩

def quietChan (free : Table Buf txBufs) (holder : Option Call) : Chan :=
  ⟨fun _ => Vector.replicate txBuf 0, free, [], [], [], [], holder⟩

def oneRecord : List Label := [.write [104, 105], .call true, .consume]

theorem one_record_conserved :
    ∃ s, (chanProbe fun _ => Vector.replicate txBuf 0).bind (run step · oneRecord) = some s ∧
      Conserved oneRecord s ∧ s.received = [[104, 105]] := by
  obtain ⟨free, hprobe, hrecs⟩ := exists_chanProbe fun _ => Vector.replicate txBuf 0
  have hn : free.n = txBufs := by rw [← free.length_recs, hrecs, List.length_finRange]
  obtain ⟨b, free', hpop⟩ := free.exists_pop (by rw [hn]; decide)
  have hlock : step (quietChan free none) (.write [104, 105]) =
      some (quietChan free (some (.write [104, 105] false))) := by
    have hzero : (free.n == 0) = false := by rw [hn]; rfl
    simp only [step, attempt, quietChan, hzero]
    rfl
  have hadd : step (quietChan free (some (.write [104, 105] false))) (.call true) =
      some ((quietChan free (some (.write [104, 105] false))).add [104, 105] b free') := by
    simp only [step, attempt, quietChan, hpop]
    rfl
  obtain ⟨s, hs, hpending, hholder⟩ :
      ∃ s, (chanProbe fun _ => Vector.replicate txBuf 0).bind (run step · oneRecord) = some s ∧
        s.pending = [] ∧ s.holder = none := by
    rw [hprobe, ← quietChan]
    simp only [Option.bind_some, oneRecord, run, hlock, hadd]
    exact ⟨_, rfl, rfl, rfl⟩
  have hconserved := records_conserved _ oneRecord s hs
  refine ⟨s, hs, hconserved, ?_⟩
  have hdelivered := hconserved.delivered
  rw [hpending, Chan.calling, hholder] at hdelivered
  simpa [writes, oneRecord] using hdelivered.symm

end KStep.Output
