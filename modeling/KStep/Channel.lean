import KStep.RingQueue
import KStep.Runs

/-!
# Input from the host

`rx_done` moves the bytes of the received buffers into a ring of 4096, and the controller takes
them out one at a time in `kstep_io_readline`, which keeps the first bytes of a line and returns at
its newline. The two meet in the ring's free-running counters only, and interleave in any way.
-/

namespace KStep.Channel

open RingQueue

def rxRing : ℕ := 4096

def newline : UInt8 := 10

/-- `rx_ring` with `rx_tail` as its head and `rx_head` as its tail, and the controller: whether its
`wait_event` is over, the line it is reading with the size of its buffer, and what its calls have
returned. -/
structure Io where
  ring : Buffer UInt8
  panicked : Bool
  ready : Bool
  call : Option (ℕ × List UInt8)
  returned : List (ℕ × List UInt8)

def Io.boot : Io := ⟨⟨fun _ => 0, 0, 0⟩, false, false, none, []⟩

/-- The bytes of one received buffer; the flag is the panic. -/
def rxBytes : Buffer UInt8 → List UInt8 → Buffer UInt8 × Bool
  | r, [] => (r, false)
  | r, c :: buf =>
      if r.outstanding = rxRing then (r, true)
      else rxBytes { r with
        slots := Function.update r.slots (r.tail.toNat % rxRing) c
        tail := r.tail + 1 } buf

def rxDone : Buffer UInt8 → List (List UInt8) → Buffer UInt8 × Bool
  | r, [] => (r, false)
  | r, buf :: bufs => match rxBytes r buf with
    | (r', true) => (r', true)
    | (r', false) => rxDone r' bufs

inductive Label
  /-- `rx_done` -/
  | rx (bufs : List (List UInt8))
  /-- `kstep_io_readline(line, max)` is called -/
  | call (max : ℕ)
  /-- its `wait_event` sees a byte -/
  | look
  /-- it takes the byte -/
  | take
  deriving DecidableEq

def readByte (s : Io) (ring : Buffer UInt8) (max : ℕ) (line : List UInt8) (c : UInt8) : Io :=
  if c = newline then
    { s with ring := ring, ready := false, call := none, returned := s.returned ++ [(max, line)] }
  else
    { s with
      ring := ring
      ready := false
      call := some (max, if line.length + 1 < max then line ++ [c] else line) }

def step (s : Io) (e : Label) : Option Io :=
  if s.panicked then none
  else match e, s.call with
    | .rx bufs, _ => match rxDone s.ring bufs with
      | (ring, panicked) => some { s with ring := ring, panicked := panicked }
    | .call max, none => some { s with call := some (max, []) }
    | .look, some _ =>
        if s.ring.head ≠ s.ring.tail then some { s with ready := true } else none
    | .take, some (max, line) =>
        if s.ready then some (readByte s { s.ring with head := s.ring.head + 1 } max line
          (s.ring.slots (s.ring.head.toNat % rxRing))) else none
    | _, _ => none

def Label.bytes : Label → List UInt8
  | .rx bufs => bufs.flatten
  | _ => []

/-- The stream so far: what the host has sent, in the order it arrived. -/
def delivered (l : List Label) : List UInt8 := l.flatMap Label.bytes

def taken (l : List Label) : ℕ := l.count .take

variable {s t : Io} {r : Buffer UInt8} {e : Label}

/-- The bytes of a buffer go behind the contents, or there is one for which no room is left. -/
theorem rxBytes_spec (buf : List UInt8) (hroom : r.outstanding ≤ rxRing) :
    if rxRing < r.outstanding + buf.length then (rxBytes r buf).2 = true
    else ∃ r', rxBytes r buf = (r', false) ∧ r'.contents rxRing = r.contents rxRing ++ buf := by
  induction buf generalizing r with
  | nil =>
      rw [if_neg (by simpa using hroom)]
      exact ⟨r, rfl, by simp⟩
  | cons c buf ih =>
      by_cases hfull : r.outstanding = rxRing
      · rw [if_pos (by simp [hfull]), rxBytes, if_pos hfull]
      · have hput : r.put rxRing c = some _ := if_neg (not_le.mpr (lt_of_le_of_ne hroom hfull))
        have hnext := Buffer.outstanding_put (by decide) hput
        have hcontents := Buffer.contents_put (by decide) (by decide) hput
        have hrest := ih (hnext.trans_le (lt_of_le_of_ne hroom hfull))
        rw [hnext, Nat.add_assoc, Nat.add_comm 1] at hrest
        rw [rxBytes, if_neg hfull, List.length_cons]
        split_ifs with hover
        · rw [if_pos hover] at hrest
          exact hrest
        · rw [if_neg hover] at hrest
          obtain ⟨r', hr', hr'contents⟩ := hrest
          refine ⟨r', hr', ?_⟩
          rw [hr'contents, hcontents, List.append_assoc, List.singleton_append]

theorem rxDone_spec (bufs : List (List UInt8)) (hroom : r.outstanding ≤ rxRing) :
    if rxRing < r.outstanding + bufs.flatten.length then (rxDone r bufs).2 = true
    else ∃ r', rxDone r bufs = (r', false) ∧
      r'.contents rxRing = r.contents rxRing ++ bufs.flatten := by
  induction bufs generalizing r with
  | nil =>
      rw [if_neg (by simpa using hroom)]
      exact ⟨r, rfl, by simp⟩
  | cons buf bufs ih =>
      have hbuf := rxBytes_spec buf hroom
      rw [rxDone, List.flatten_cons, List.length_append]
      by_cases hover : rxRing < r.outstanding + buf.length
      · rw [if_pos hover] at hbuf
        rw [if_pos (by omega), show rxBytes r buf = ((rxBytes r buf).1, true) from
          Prod.ext rfl hbuf]
      · rw [if_neg hover] at hbuf
        obtain ⟨r', hr', hcontents⟩ := hbuf
        have hnext : r'.outstanding = r.outstanding + buf.length := by
          have hlen := congrArg List.length hcontents
          rwa [List.length_append, Buffer.length_contents, Buffer.length_contents] at hlen
        have hrest := ih (r := r') (by omega)
        rw [hnext, Nat.add_assoc] at hrest
        simp only [hr']
        split_ifs with hover'
        · rw [if_pos hover'] at hrest
          exact hrest
        · rw [if_neg hover'] at hrest
          obtain ⟨r'', hr'', hcontents'⟩ := hrest
          refine ⟨r'', hr'', ?_⟩
          rw [hcontents', hcontents, List.append_assoc]

theorem step_cases (h : step s e = some t) : s.panicked = false ∧
    ((∃ bufs, e = .rx bufs ∧
        t = { s with ring := (rxDone s.ring bufs).1, panicked := (rxDone s.ring bufs).2 }) ∨
      (∃ max, e = .call max ∧ s.call = none ∧ t = { s with call := some (max, []) }) ∨
      (∃ call, e = .look ∧ s.call = some call ∧ s.ring.head ≠ s.ring.tail ∧
        t = { s with ready := true }) ∨
      ∃ max line, e = .take ∧ s.call = some (max, line) ∧ s.ready = true ∧
        t = readByte s { s.ring with head := s.ring.head + 1 } max line
          (s.ring.slots (s.ring.head.toNat % rxRing))) := by
  unfold step at h
  by_cases hpanic : s.panicked = true
  · rw [if_pos hpanic] at h
    cases h
  rw [if_neg hpanic] at h
  refine ⟨by simpa using hpanic, ?_⟩
  split at h
  · cases h
    exact Or.inl ⟨_, rfl, rfl⟩
  · rename_i hcall
    cases h
    exact Or.inr (Or.inl ⟨_, rfl, hcall, rfl⟩)
  · rename_i hcall
    split_ifs at h with hne
    cases h
    exact Or.inr (Or.inr (Or.inl ⟨_, rfl, hcall, hne, rfl⟩))
  · rename_i hcall
    split_ifs at h with hready
    cases h
    exact Or.inr (Or.inr (Or.inr ⟨_, _, rfl, hcall, hready, rfl⟩))
  · cases h

end KStep.Channel
