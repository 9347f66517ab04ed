import KStep.RowTable
import KStep.Runs
import Mathlib.Data.List.FinRange

/-!
# Records to the host

`kstep_io_write` takes a buffer off a stack of 256, copies the record into it and adds it to the
virtqueue. The host reads the buffers in the order they were added and completes each when it
pleases; `tx_reclaim`, from the interrupt or from a writer that finds the stack empty, puts
completed buffers back. The lock orders the calls, and the host acts at any point between their
steps.
-/

namespace KStep.Output

open RowTable Runs

def txBufs : ℕ := 256
def txBuf : ℕ := 512

/-- A transmit buffer, by its place in `tx_buf`. -/
abbrev Buf := Fin txBufs

/-- The call that holds `tx_lock`: a writer, which may be reclaiming first, or `tx_done`. -/
inductive Call
  | write (data : List UInt8) (reclaiming : Bool)
  | txDone

/-- The buffers and the stack, and the virtqueue: `pending` are added and not yet read by the host,
with their lengths, `held` are read and `used` completed. `received` is what the host has read. -/
structure Chan where
  mem : Buf → Vector UInt8 txBuf
  free : Table Buf txBufs
  pending : List (Buf × ℕ)
  held : List Buf
  used : List Buf
  received : List (List UInt8)
  holder : Option Call

inductive Panic
  | recordTooLong
  /-- `channel: %d records in flight, the host is not reading` -/
  | hostBehind
  | addFailed
  deriving DecidableEq

/-- Why a step is not taken: it is not its turn, a panic, or a store past `tx_free`. -/
inductive Stop
  | blocked
  | panic (why : Panic)
  | overrun
  deriving DecidableEq

inductive Label
  /-- `kstep_io_write` takes the lock -/
  | write (data : List UInt8)
  /-- `tx_done` takes the lock -/
  | txDone
  /-- the call that holds the lock goes on, with what `virtqueue_add_outbuf` answers if asked -/
  | call (added : Bool)
  /-- the host reads the next buffer -/
  | consume
  /-- the host completes a buffer it has read -/
  | complete (b : Buf)

def memcpy (buf : Vector UInt8 txBuf) (data : List UInt8) : Vector UInt8 txBuf :=
  Vector.ofFn fun i => data.getD i (buf.get i)

def Chan.reclaim (s : Chan) (b : Buf) (used : List Buf) : Except Stop Chan :=
  match s.free.push b with
  | none => .error .overrun
  | some free => .ok { s with free := free, used := used }

def Chan.add (s : Chan) (data : List UInt8) (b : Buf) (free : Table Buf txBufs) : Chan :=
  { s with
    mem := Function.update s.mem b (memcpy (s.mem b) data)
    free := free
    pending := s.pending ++ [(b, data.length)]
    holder := none }

def Chan.record (s : Chan) (e : Buf × ℕ) : List UInt8 := (s.mem e.1).toList.take e.2

def attempt (s : Chan) : Label → Except Stop Chan
  | .write data =>
      if txBuf < data.length then .error (.panic .recordTooLong)
      else match s.holder with
        | some _ => .error .blocked
        | none => .ok { s with holder := some (.write data (s.free.n == 0)) }
  | .txDone => match s.holder with
    | some _ => .error .blocked
    | none => .ok { s with holder := some .txDone }
  | .call added => match s.holder with
    | none => .error .blocked
    | some .txDone => match s.used with
      | [] => .ok { s with holder := none }
      | b :: used => s.reclaim b used
    | some (.write data true) => match s.used with
      | [] => .ok { s with holder := some (.write data false) }
      | b :: used => s.reclaim b used
    | some (.write data false) => match s.free.pop with
      | none => .error (.panic .hostBehind)
      | some (b, free) => if added then .ok (s.add data b free) else .error (.panic .addFailed)
  | .consume => match s.pending with
    | [] => .error .blocked
    | e :: pending => .ok { s with
        pending := pending
        held := s.held ++ [e.1]
        received := s.received ++ [s.record e] }
  | .complete b =>
      if s.held.elem b then .ok { s with held := s.held.erase b, used := s.used ++ [b] }
      else .error .blocked

def step (s : Chan) (e : Label) : Option Chan := (attempt s e).toOption

/-- `chan_probe`: all buffers on the stack, with whatever `kmalloc` left in them. -/
def chanProbe (mem : Buf → Vector UInt8 txBuf) : Option Chan :=
  let unset := Vector.replicate txBufs (⟨0, by decide⟩ : Buf)
  ((List.finRange txBufs).foldlM Table.push (Table.fresh unset)).map fun free =>
    ⟨mem, free, [], [], [], [], none⟩

variable {s t : Chan} {e : Label} {stop : Stop} {b : Buf}

inductive Steps (s : Chan) : Label → Chan → Prop
  | lockWrite {data : List UInt8} (hfits : data.length ≤ txBuf) (hnone : s.holder = none) :
      Steps s (.write data) { s with holder := some (.write data (s.free.n == 0)) }
  | lockDone (hnone : s.holder = none) : Steps s .txDone { s with holder := some .txDone }
  | unlock {added : Bool} (hholder : s.holder = some .txDone) :
      Steps s (.call added) { s with holder := none }
  | reclaimed {added : Bool} {data : List UInt8} (hholder : s.holder = some (.write data true)) :
      Steps s (.call added) { s with holder := some (.write data false) }
  | reclaim {added : Bool} {b : Buf} {used : List Buf} {free : Table Buf txBufs}
      (hused : s.used = b :: used) (hpush : s.free.push b = some free) :
      Steps s (.call added) { s with free := free, used := used }
  | add {data : List UInt8} {b : Buf} {free : Table Buf txBufs}
      (hholder : s.holder = some (.write data false)) (hpop : s.free.pop = some (b, free)) :
      Steps s (.call true) (s.add data b free)
  | consume {r : Buf × ℕ} {pending : List (Buf × ℕ)} (hpending : s.pending = r :: pending) :
      Steps s .consume { s with
        pending := pending
        held := s.held ++ [r.1]
        received := s.received ++ [s.record r] }
  | complete {b : Buf} (hheld : b ∈ s.held) :
      Steps s (.complete b) { s with held := s.held.erase b, used := s.used ++ [b] }

inductive Stops (s : Chan) : Stop → Prop
  | blocked : Stops s .blocked
  | recordTooLong : Stops s (.panic .recordTooLong)
  | addFailed : Stops s (.panic .addFailed)
  | hostBehind (hpop : s.free.pop = none) : Stops s (.panic .hostBehind)
  | overrun {b : Buf} {used : List Buf} (hused : s.used = b :: used)
      (hpush : s.free.push b = none) : Stops s .overrun

inductive Outcome (s : Chan) (e : Label) : Except Stop Chan → Prop
  | ok {t : Chan} (h : Steps s e t) : Outcome s e (.ok t)
  | error {stop : Stop} (h : Stops s stop) : Outcome s e (.error stop)

theorem reclaim_outcome {used : List Buf} {added : Bool} (hused : s.used = b :: used) :
    Outcome s (.call added) (s.reclaim b used) := by
  unfold Chan.reclaim
  split
  · exact .error (.overrun hused ‹_›)
  · exact .ok (.reclaim hused ‹_›)

theorem attempt_outcome (s : Chan) (e : Label) : Outcome s e (attempt s e) := by
  cases e with
  | write data =>
      simp only [attempt]
      split_ifs with hlen
      · exact .error .recordTooLong
      · split
        · exact .error .blocked
        · exact .ok (.lockWrite (Nat.not_lt.mp hlen) ‹_›)
  | txDone =>
      simp only [attempt]
      split
      · exact .error .blocked
      · exact .ok (.lockDone ‹_›)
  | call added =>
      simp only [attempt]
      split
      · exact .error .blocked
      · rename_i hholder
        split
        · exact .ok (.unlock hholder)
        · exact reclaim_outcome ‹_›
      · rename_i hholder
        split
        · exact .ok (.reclaimed hholder)
        · exact reclaim_outcome ‹_›
      · rename_i hholder
        split
        · exact .error (.hostBehind ‹_›)
        · rename_i hpop
          split_ifs with hadded
          · subst hadded
            exact .ok (.add hholder hpop)
          · exact .error .addFailed
  | consume =>
      simp only [attempt]
      split
      · exact .error .blocked
      · exact .ok (.consume ‹_›)
  | complete b =>
      simp only [attempt]
      split_ifs with hheld
      · exact .ok (.complete (List.elem_iff.mp hheld))
      · exact .error .blocked

theorem attempt_steps (h : attempt s e = .ok t) : Steps s e t := by
  have houtcome := attempt_outcome s e
  rw [h] at houtcome
  cases houtcome
  assumption

theorem attempt_stops (h : attempt s e = .error stop) : Stops s stop := by
  have houtcome := attempt_outcome s e
  rw [h] at houtcome
  cases houtcome
  assumption

end KStep.Output
