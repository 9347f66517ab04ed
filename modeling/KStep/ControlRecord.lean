import KStep.Machine

/-!
# The record's queue of actions

`queue[]` of `struct kstep_task` holds ints, zeroed when the record is made, and zero is the action
`NONE`. The controller puts actions at its tail and the task takes them at its head, in any order of
the two. Nothing is lost, repeated, reordered or invented, whatever the counters have wrapped past.
-/

namespace KStep.ControlRecord

open RingQueue Runs

/-- The queue of `struct kstep_task`; `none` is `KSTEP_CTRL_NONE`. -/
abbrev Record := Buffer (Option Ctrl)

def kzalloc : Record := ⟨fun _ => none, 0, 0⟩

def kstepCtrlTake (r : Record) : Option Ctrl × Record :=
  match r.take kstepCtrlQueue with
  | none => (none, r)
  | some (act, r') => (act, r')

/-- A full queue panics. -/
def kstepCtrlPut (r : Record) (act : Ctrl) : Option Record := r.put kstepCtrlQueue (some act)

def kstepTaskAdd : Option Record := kstepCtrlPut kzalloc .park

structure Log where
  record : Record
  put : List Ctrl
  taken : List Ctrl

inductive Event
  | put (act : Ctrl)
  | take

def step (s : Log) : Event → Option Log
  | .put act => (kstepCtrlPut s.record act).map fun r =>
      { s with record := r, put := s.put ++ [act] }
  | .take => match kstepCtrlTake s.record with
    | (none, r) => some { s with record := r }
    | (some act, r) => some { s with record := r, taken := s.taken ++ [act] }

def asked (l : List Event) : List Ctrl := l.filterMap fun
  | .put act => some act
  | .take => none

/-- What has been put is what has been taken and then what is outstanding. -/
def Log.Balanced (s : Log) : Prop :=
  s.put.map some = s.taken.map some ++ s.record.contents kstepCtrlQueue

variable {s t : Log} {e : Event} {l : List Event} {act : Ctrl}

theorem contents_kstepCtrlPut {r r' : Record} (h : kstepCtrlPut r act = some r') :
    r'.contents kstepCtrlQueue = r.contents kstepCtrlQueue ++ [some act] :=
  Buffer.contents_put (by decide) (by decide) h

/-- What is outstanding was put, so it is no `NONE`. -/
theorem Log.Balanced.take_act (hs : s.Balanced) {entry : Option Ctrl} {r : Record}
    (h : s.record.take kstepCtrlQueue = some (entry, r)) : ∃ act, entry = some act := by
  have hmem : entry ∈ s.put.map some := by
    rw [hs, Buffer.contents_take h]
    exact List.mem_append_right _ List.mem_cons_self
  obtain ⟨act, -, hact⟩ := List.mem_map.mp hmem
  exact ⟨act, hact.symm⟩

theorem step_balanced (h : step s e = some t) (hs : s.Balanced) : t.Balanced := by
  cases e with
  | put act =>
      obtain ⟨r, hr, rfl⟩ := Option.map_eq_some_iff.mp h
      rw [Log.Balanced, contents_kstepCtrlPut hr, List.map_append, hs, List.append_assoc]
      rfl
  | take =>
      simp only [step, kstepCtrlTake] at h
      cases htake : s.record.take kstepCtrlQueue with
      | none =>
          rw [htake] at h
          cases h
          exact hs
      | some taken =>
          obtain ⟨entry, r⟩ := taken
          obtain ⟨act, rfl⟩ := hs.take_act htake
          rw [htake] at h
          cases h
          rw [Log.Balanced, Buffer.contents_take htake] at hs
          rw [Log.Balanced, hs, List.map_append, List.append_assoc]
          rfl

theorem step_put (h : step s e = some t) : t.put = s.put ++ asked [e] := by
  cases e with
  | put act =>
      obtain ⟨r, -, rfl⟩ := Option.map_eq_some_iff.mp h
      rfl
  | take =>
      simp only [step] at h
      split at h
      · cases h
        exact (List.append_nil _).symm
      · cases h
        exact (List.append_nil _).symm

theorem run_put (h : run step s l = some t) : t.put = s.put ++ asked l := by
  induction l generalizing s with
  | nil =>
      cases h
      exact (List.append_nil _).symm
  | cons e l ih =>
      obtain ⟨u, hu, hrun⟩ := run_cons h
      rw [ih hrun, step_put hu, List.append_assoc, asked, asked, asked, ← List.filterMap_append]
      rfl

theorem Log.Balanced.length (hs : s.Balanced) :
    s.put.length = s.taken.length + s.record.outstanding := by
  have hlen := congrArg List.length hs
  rw [List.length_append, List.length_map, List.length_map, Buffer.length_contents] at hlen
  exact hlen

theorem Log.Balanced.taken_before_put (hs : s.Balanced) : s.taken <+: s.put := by
  have hmap : s.taken.map some <+: s.put.map some := ⟨_, hs.symm⟩
  exact (List.prefix_map_iff_of_injective (Option.some_injective _)).mp hmap

theorem Log.Balanced.taken_eq_put_iff (hs : s.Balanced) :
    s.taken = s.put ↔ s.record.outstanding = 0 := by
  have hlen := hs.length
  constructor
  · intro heq
    rw [heq] at hlen
    omega
  · intro hzero
    exact hs.taken_before_put.eq_of_length (by omega)

/-- Nothing is taken exactly when everything put has been. -/
theorem Log.Balanced.take_eq_none_iff (hs : s.Balanced) :
    (kstepCtrlTake s.record).1 = none ↔ s.taken = s.put := by
  rw [hs.taken_eq_put_iff, kstepCtrlTake]
  cases htake : s.record.take kstepCtrlQueue with
  | none =>
      have hempty := Buffer.take_eq_none_iff.mp htake
      have hlen := congrArg List.length hempty
      rw [Buffer.length_contents] at hlen
      exact ⟨fun _ => hlen, fun _ => rfl⟩
  | some taken =>
      obtain ⟨entry, r⟩ := taken
      obtain ⟨act, rfl⟩ := hs.take_act htake
      rw [Buffer.outstanding_take htake]
      simp

def newTask (r : Record) : Log := ⟨r, [.park], []⟩

theorem newTask_balanced {r : Record} (h : kstepTaskAdd = some r) : (newTask r).Balanced := by
  rw [Log.Balanced, newTask, contents_kstepCtrlPut h]
  rfl

theorem kstepCtrlTake_record (r : Record) : (kstepCtrlTake r).2 = r.drop kstepCtrlQueue := by
  rw [kstepCtrlTake, Buffer.drop]
  cases r.take kstepCtrlQueue with
  | none => rfl
  | some taken => rfl

theorem step_take_record (h : step s .take = some t) :
    t.record = s.record.drop kstepCtrlQueue := by
  rw [← kstepCtrlTake_record]
  simp only [step] at h
  split at h
  next r htake =>
    cases h
    rw [htake]
  next act r htake =>
    cases h
    rw [htake]

theorem step_outstanding (h : step s e = some t) (hs : s.record.outstanding ≤ kstepCtrlQueue) :
    t.record.outstanding ≤ kstepCtrlQueue := by
  cases e with
  | put act =>
      obtain ⟨r, hr, rfl⟩ := Option.map_eq_some_iff.mp h
      have hroom : ¬ kstepCtrlQueue ≤ s.record.outstanding := by
        rw [← Buffer.put_eq_none_iff (a := some act)]
        exact Option.ne_none_iff_exists'.mpr ⟨r, hr⟩
      change r.outstanding ≤ kstepCtrlQueue
      rw [Buffer.outstanding_put (by decide) hr]
      omega
  | take =>
      rw [step_take_record h, Buffer.outstanding_drop]
      omega

/-- In every run of puts and takes on a new task's record, what has been taken is a prefix of what
has been put, which is `PARK` and then what was asked for; a take finds nothing exactly when
everything put has been taken; and a put panics exactly when `KSTEP_CTRL_QUEUE` are outstanding. -/
theorem actions_in_order {r : Record} (hadd : kstepTaskAdd = some r)
    (h : run step (newTask r) l = some s) :
    s.put = .park :: asked l ∧ s.taken <+: s.put ∧
      ((kstepCtrlTake s.record).1 = none ↔ s.taken = s.put) ∧
      s.put.length ≤ s.taken.length + kstepCtrlQueue ∧
      ∀ act, kstepCtrlPut s.record act = none ↔
        s.put.length = s.taken.length + kstepCtrlQueue := by
  have hnew := newTask_balanced hadd
  have hs : s.Balanced := run_invariant (fun _ _ _ => step_balanced) h hnew
  have hbound : s.record.outstanding ≤ kstepCtrlQueue := by
    refine run_invariant (I := fun s => s.record.outstanding ≤ kstepCtrlQueue)
      (fun _ _ _ => step_outstanding) h ?_
    have hlen := hnew.length
    simp only [newTask, List.length_singleton, List.length_nil, Nat.zero_add] at hlen
    change r.outstanding ≤ kstepCtrlQueue
    rw [← hlen]
    decide
  have hlen := hs.length
  refine ⟨run_put h, hs.taken_before_put, hs.take_eq_none_iff, by omega, ?_⟩
  intro act
  rw [kstepCtrlPut, Buffer.put_eq_none_iff]
  omega

def twoPuts : List Event := [.take, .put .pause, .put .exit, .take, .take, .take]

theorem actions_in_order_two_puts : ∃ r s, kstepTaskAdd = some r ∧
    run step (newTask r) twoPuts = some s ∧ s.put = [.park, .pause, .exit] ∧ s.taken <+: s.put ∧
      (kstepCtrlTake s.record).1 = none :=
  have h := fun r s => actions_in_order (r := r) (s := s) (l := twoPuts)
  ⟨_, _, rfl, rfl, (h _ _ rfl rfl).1, (h _ _ rfl rfl).2.1, (h _ _ rfl rfl).2.2.1.mpr rfl⟩

end KStep.ControlRecord
