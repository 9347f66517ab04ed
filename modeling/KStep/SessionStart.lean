import Mathlib.Data.List.TakeWhile

/-!
# What a failed start leaves behind

`Session::start` spawns QEMU, waits for its socket, reads the ready line, or the sidecar of a
snapshot, opens the RAM file and unlinks it, and checks the shared region. Only the `Session` it
builds at the end kills the child when it is dropped; `std::process::Child` does not. QEMU makes
the RAM file at some moment after it starts, and may exit at any moment.
-/

namespace KStep.SessionStart

/-- The QEMU child and the file at `ram_path`: `exited` and `made` are QEMU's doing, `killed` and
`removed` those of `start`. -/
structure Host where
  exited : Bool
  killed : Bool
  made : Bool
  removed : Bool
  deriving DecidableEq

structure Env where
  makes : Bool
  exits : Bool

def Host.after (h : Host) (e : Env) : Host :=
  if h.exited then h else { h with made := h.made || e.makes, exited := e.exits }

inductive StartError
  | spawn
  | tryWait
  /-- qemu exited before opening the socket -/
  | exited
  /-- no socket after the timeout -/
  | noSocket
  | setReadTimeout
  | tryClone
  /-- the sidecar cannot be read -/
  | sidecar
  | monitor
  | infoStatus
  /-- the resumed machine is not running after the timeout -/
  | notRunning
  /-- the sidecar is not a JSON text -/
  | badSidecar
  /-- no or a malformed ready line -/
  | readReply
  | openRam
  /-- ready line without shm address -/
  | noShm
  /-- shm address below RAM -/
  | belowRam
  /-- the shared region cannot be read, or is of another layout -/
  | region
  deriving DecidableEq

structure Started where
  shmAt : ℕ
  covAt : Option ℕ

abbrev Result := Except StartError Started × Host

structure Call where
  env : Env
  ok : Bool

def Call.bind (c : Call) (error : StartError) (h : Host) (next : Host → Option Result) :
    Option Result :=
  if c.ok then next (h.after c.env) else some (.error error, h.after c.env)

structure Round where
  env : Env
  connects : Bool
  waitFails : Bool
  late : Bool

/-- The loop that waits for the socket; `none` while it has not ended. -/
def connect : List Round → Host → (Host → Option Result) → Option Result
  | [], _, _ => none
  | r :: rounds, h, next =>
      let h := h.after r.env
      if r.connects then next h
      else if r.waitFails then some (.error .tryWait, h)
      else if h.exited then some (.error .exited, h)
      else if r.late then some (.error .noSocket, { h with killed := true })
      else connect rounds h next

/-- A round of the loop that waits for a resumed machine; `running` is what the answer to
`info status` says, `none` when there is none. -/
structure Poll where
  env : Env
  running : Option Bool
  late : Bool

def awaitRunning : List Poll → Host → (Host → Option Result) → Option Result
  | [], _, _ => none
  | p :: polls, h, next =>
      let h := h.after p.env
      match p.running with
      | none => some (.error .infoStatus, h)
      | some true => next h
      | some false => if p.late then some (.error .notRunning, h) else awaitRunning polls h next

/-- Where the ready line comes from: the driver, or the sidecar of the snapshot resumed. -/
inductive Ready
  | reply (read : Call)
  | sidecar (read monitor : Call) (polls : List Poll) (parse : Call)

def Ready.await (r : Ready) (h : Host) (next : Host → Option Result) : Option Result :=
  match r with
  | .reply read => read.bind .readReply h next
  | .sidecar read monitor polls parse =>
      read.bind .sidecar h fun h => monitor.bind .monitor h fun h =>
        awaitRunning polls h fun h => parse.bind .badSidecar h next

/-- How the calls of a start fall. `stale` is a file that was at `ram_path` before, `removes`
whether it can be unlinked; `shm` and `cov` are the numbers of the ready line. -/
structure Attempt where
  spawns : Bool
  stale : Bool
  rounds : List Round
  setReadTimeout : Call
  tryClone : Call
  ready : Ready
  openRam : Call
  removes : Bool
  shm : Option ℕ
  cov : Option ℕ
  ramBase : ℕ
  region : Call

def checkedSub (a b : ℕ) : Option ℕ := if b ≤ a then some (a - b) else none

/-- `Drop for Session`: kill the child unless it has exited. -/
def dropSession (h : Host) : Host := if h.exited then h else { h with killed := true }

/-- The end of `start`, once the RAM file is open. -/
def finish (a : Attempt) (h : Host) : Option Result :=
  let h := { h with removed := a.removes }
  match a.shm with
  | none => some (.error .noShm, h)
  | some shm => match checkedSub shm a.ramBase with
    | none => some (.error .belowRam, h)
    | some shmAt =>
        let covAt := (a.cov.filter (· ≠ 0)).bind (checkedSub · a.ramBase)
        let h := h.after a.region.env
        if a.region.ok then some (.ok ⟨shmAt, covAt⟩, h) else some (.error .region, dropSession h)

def start (a : Attempt) : Option Result :=
  let h : Host := ⟨false, false, a.stale, false⟩
  if a.spawns then
    connect a.rounds h fun h => a.setReadTimeout.bind .setReadTimeout h fun h =>
      a.tryClone.bind .tryClone h fun h => a.ready.await h fun h =>
        if a.openRam.ok && (h.after a.openRam.env).made then finish a (h.after a.openRam.env)
        else some (.error .openRam, h.after a.openRam.env)
  else some (.error .spawn, h)

/-- Nothing is left: the child has been killed or has exited, and its RAM file is gone. -/
def Host.Clean (h : Host) : Prop :=
  (h.exited = true ∨ h.killed = true) ∧ (h.made = true → h.removed = true)

/-- A call of a start, as an attempt says it falls: what QEMU does meanwhile, whether the start goes
on from it, and whether the child is killed where it does not. -/
structure Moment where
  env : Env
  goes : Bool
  kills : Bool

def Call.moment (c : Call) : Moment := ⟨c.env, c.ok, false⟩

/-- The rounds up to the one that connects. Only the deadline has the child killed. -/
def socketMoments : Bool → List Round → List Moment
  | _, [] => []
  | exited, r :: rounds =>
      let exited := exited || r.env.exits
      if r.connects then [⟨r.env, true, false⟩]
      else ⟨r.env, !r.waitFails && !exited && !r.late, !r.waitFails && !exited⟩ ::
        socketMoments exited rounds

def pollMoments : List Poll → List Moment
  | [] => []
  | p :: polls =>
      if p.running = some true then [⟨p.env, true, false⟩]
      else ⟨p.env, p.running = some false && !p.late, false⟩ :: pollMoments polls

def Ready.moments : Ready → List Moment
  | .reply read => [read.moment]
  | .sidecar read monitor polls parse =>
      [read.moment] ++ ([monitor.moment] ++ (pollMoments polls ++ [parse.moment]))

def Attempt.moments (a : Attempt) : List Moment :=
  socketMoments false a.rounds ++ ([a.setReadTimeout.moment] ++ ([a.tryClone.moment] ++
    a.ready.moments))

def Host.by (h : Host) (ms : List Moment) : Host := ms.foldl (fun h m => h.after m.env) h

def Attempt.spawned (a : Attempt) : Host := ⟨false, false, a.stale, false⟩

def Attempt.Addressed (a : Attempt) : Prop := ∃ shm, a.shm = some shm ∧ a.ramBase ≤ shm

/-- A start that fails has released all it had: where one of the calls before the RAM file is opened
fails, at the deadline or with QEMU gone, and no file made; where that fails, with QEMU gone and no
file made; and behind it, if the file can be unlinked, with QEMU gone or the region's address in
RAM. -/
def Attempt.Released (a : Attempt) : Prop :=
  let past := a.moments.takeWhile Moment.goes
  match a.moments.dropWhile Moment.goes with
  | m :: _ =>
      (m.kills = true ∨ (a.spawned.by (past ++ [m])).exited = true) ∧
        (a.spawned.by (past ++ [m])).made = false
  | [] =>
      let h := (a.spawned.by past).after a.openRam.env
      if a.openRam.ok && h.made then
        a.removes = true ∧ (a.Addressed ∨ h.exited = true)
      else h.exited = true ∧ h.made = false

variable {a : Attempt} {e : StartError} {h h' : Host} {next next' : Host → Option Result}
  {ms ms' : List Moment} {r : Option Result}

@[simp] theorem after_exited (h : Host) (env : Env) :
    (h.after env).exited = (h.exited || env.exits) := by
  rw [Host.after]
  split
  next hexited => rw [hexited, Bool.true_or]
  next hexited => simp [hexited]

@[simp] theorem after_killed (h : Host) (env : Env) : (h.after env).killed = h.killed := by
  rw [Host.after]
  split <;> rfl

@[simp] theorem after_removed (h : Host) (env : Env) : (h.after env).removed = h.removed := by
  rw [Host.after]
  split <;> rfl

theorem after_made (h : Host) (env : Env) (hmade : h.made = true) : (h.after env).made = true := by
  rw [Host.after]
  split
  · exact hmade
  · simp [hmade]

theorem by_append (h : Host) (ms ms' : List Moment) : h.by (ms ++ ms') = (h.by ms).by ms' :=
  List.foldl_append

theorem by_held (h : Host) (ms : List Moment) :
    (h.by ms).killed = h.killed ∧ (h.by ms).removed = h.removed := by
  induction ms generalizing h with
  | nil => exact ⟨rfl, rfl⟩
  | cons m ms ih =>
      have hnext := ih (h.after m.env)
      rw [after_killed, after_removed] at hnext
      exact hnext

def Host.kill (h : Host) (kills : Bool) : Host := if kills then { h with killed := true } else h

/-- The start fails at the first moment that does not go on, goes on when there is none, or has not
come to its end. -/
def Falls (ms : List Moment) (h : Host) (next : Host → Option Result) (r : Option Result) : Prop :=
  r = none ∨
  (∃ past m rest e, ms = past ++ m :: rest ∧ (∀ x ∈ past, x.goes = true) ∧ m.goes = false ∧
    r = some (.error e, (h.by (past ++ [m])).kill m.kills)) ∨
  (∀ x ∈ ms, x.goes = true) ∧ r = next (h.by ms)

theorem Falls.append (hr : Falls ms h next r) (hnext : ∀ h, Falls ms' h next' (next h)) :
    Falls (ms ++ ms') h next' r := by
  rcases hr with hnone | ⟨past, m, rest, e, rfl, hpast, hm, hr⟩ | ⟨hall, rfl⟩
  · exact Or.inl hnone
  · exact Or.inr (Or.inl ⟨past, m, rest ++ ms', e, by simp, hpast, hm, hr⟩)
  · rcases hnext (h.by ms) with hnone | ⟨past, m, rest, e, rfl, hpast, hm, hr⟩ | ⟨hall', hr⟩
    · exact Or.inl hnone
    · refine Or.inr (Or.inl ⟨ms ++ past, m, rest, e, by simp, ?_, hm, ?_⟩)
      · intro x hx
        exact (List.mem_append.mp hx).elim (hall x) (hpast x)
      · rw [hr, List.append_assoc, by_append h ms]
    · refine Or.inr (Or.inr ⟨fun x hx => (List.mem_append.mp hx).elim (hall x) (hall' x), ?_⟩)
      rw [hr, by_append]

theorem falls_stop {m : Moment} (hm : m.goes = false) (e : StartError) :
    Falls (m :: ms) h next (some (.error e, (h.after m.env).kill m.kills)) :=
  Or.inr (Or.inl ⟨[], m, ms, e, rfl, nofun, hm, rfl⟩)

theorem falls_go {m : Moment} (hm : m.goes = true) : Falls [m] h next (next (h.after m.env)) :=
  Or.inr (Or.inr ⟨fun x hx => by rw [List.mem_singleton.mp hx]; exact hm, rfl⟩)

theorem falls_cons {m : Moment} (hm : m.goes = true) (hr : Falls ms (h.after m.env) next r) :
    Falls (m :: ms) h next r := by
  rcases hr with hnone | ⟨past, m', rest, e, rfl, hpast, hm', hr⟩ | ⟨hall, hr⟩
  · exact Or.inl hnone
  · exact Or.inr (Or.inl ⟨m :: past, m', rest, e, rfl, List.forall_mem_cons.mpr ⟨hm, hpast⟩, hm', hr⟩)
  · exact Or.inr (Or.inr ⟨List.forall_mem_cons.mpr ⟨hm, hall⟩, hr⟩)

theorem Call.bind_falls (c : Call) (error : StartError) (h : Host)
    (next : Host → Option Result) : Falls [c.moment] h next (c.bind error h next) := by
  rw [Call.bind]
  split
  next hok => exact falls_go hok
  next hok => exact falls_stop (m := c.moment) (by simpa [Call.moment] using hok) error

theorem connect_falls (rounds : List Round) (h : Host) (next : Host → Option Result) :
    Falls (socketMoments h.exited rounds) h next (connect rounds h next) := by
  induction rounds generalizing h with
  | nil => exact Or.inl rfl
  | cons r rounds ih =>
      simp only [socketMoments, connect, ← after_exited]
      split_ifs with hconnects hwait hexited hlate
      · exact falls_go (m := ⟨r.env, true, false⟩) rfl
      · simp only [hwait, Bool.not_true, Bool.false_and]
        exact falls_stop rfl .tryWait
      · simp only [hexited, Bool.not_true, Bool.and_false, Bool.false_and]
        exact falls_stop rfl .exited
      · have hkills : (⟨r.env, !r.waitFails && !(h.after r.env).exited && !r.late,
            !r.waitFails && !(h.after r.env).exited⟩ : Moment) = ⟨r.env, false, true⟩ := by
          simp only [Bool.not_eq_true] at hwait hexited
          rw [hwait, hexited, hlate]
          rfl
        rw [hkills]
        exact falls_stop rfl .noSocket
      · simp only [Bool.not_eq_true] at hwait hexited hlate
        refine falls_cons ?_ (ih _)
        simp only [hwait, hexited, hlate, Bool.not_false, Bool.and_true]

theorem awaitRunning_falls (polls : List Poll) (h : Host) (next : Host → Option Result) :
    Falls (pollMoments polls) h next (awaitRunning polls h next) := by
  induction polls generalizing h with
  | nil => exact Or.inl rfl
  | cons p polls ih =>
      have hnext := ih (h.after p.env)
      rcases hrunning : p.running with _ | running
      · simp only [pollMoments, awaitRunning, hrunning]
        exact falls_stop rfl .infoStatus
      cases running with
      | true =>
          simp only [pollMoments, awaitRunning, hrunning, if_true]
          exact falls_go (m := ⟨p.env, true, false⟩) rfl
      | false =>
          simp only [pollMoments, awaitRunning, hrunning, Option.some.injEq, Bool.false_eq_true,
            if_false, decide_true, Bool.true_and]
          rcases hlate : p.late with _ | _
          · exact falls_cons (m := ⟨p.env, true, false⟩) rfl hnext
          · exact falls_stop (m := ⟨p.env, false, false⟩) rfl .notRunning

theorem Ready.await_falls (r : Ready) (h : Host) (next : Host → Option Result) :
    Falls r.moments h next (r.await h next) := by
  cases r with
  | reply read => exact read.bind_falls .readReply h next
  | sidecar read monitor polls parse =>
      exact (read.bind_falls .sidecar h _).append fun h =>
        (monitor.bind_falls .monitor h _).append fun h =>
          (awaitRunning_falls polls h _).append fun h => parse.bind_falls .badSidecar h next

/-- The end of a start, from the opening of the RAM file on. -/
def openFile (a : Attempt) (h : Host) : Option Result :=
  if a.openRam.ok && (h.after a.openRam.env).made then finish a (h.after a.openRam.env)
  else some (.error .openRam, h.after a.openRam.env)

theorem start_falls (hspawn : a.spawns = true) :
    Falls a.moments a.spawned (openFile a) (start a) := by
  rw [start, if_pos hspawn]
  exact (connect_falls a.rounds a.spawned _).append fun h =>
    (a.setReadTimeout.bind_falls .setReadTimeout h _).append fun h =>
      (a.tryClone.bind_falls .tryClone h _).append fun h => a.ready.await_falls h _

theorem dropSession_gone (h : Host) :
    ((dropSession h).exited = true ∨ (dropSession h).killed = true) ∧
      (dropSession h).removed = h.removed := by
  rw [dropSession]
  split
  next hexited => exact ⟨Or.inl hexited, rfl⟩
  · exact ⟨Or.inr rfl, rfl⟩

theorem dropSession_made (h : Host) : (dropSession h).made = h.made := by
  rw [dropSession]
  split <;> rfl

/-- Behind the opening of the file it is unlinked, and the region's check ends the child. -/
theorem finish_clean_iff (hkilled : h.killed = false) (hmade : h.made = true)
    (hr : finish a h = some (.error e, h')) :
    h'.Clean ↔ a.removes = true ∧ (a.Addressed ∨ h.exited = true) := by
  simp only [finish] at hr
  split at hr
  next hshm =>
    cases hr
    simp [Host.Clean, Attempt.Addressed, hshm, hkilled, hmade, and_comm]
  next shm hshm =>
    split at hr
    next hbase =>
      cases hr
      have hbelow : ¬ a.ramBase ≤ shm := by
        rw [checkedSub] at hbase
        split at hbase
        · cases hbase
        next hlt => exact hlt
      simp [Host.Clean, Attempt.Addressed, hshm, hbelow, hkilled, hmade, and_comm]
    next shmAt hbase =>
      have habove : a.ramBase ≤ shm := by
        rw [checkedSub] at hbase
        split at hbase
        next hle => exact hle
        · cases hbase
      split_ifs at hr
      · cases hr
      cases hr
      obtain ⟨hgone, hremoved⟩ := dropSession_gone
        (Host.after { h with removed := a.removes } a.region.env)
      have hstill := after_made { h with removed := a.removes } a.region.env hmade
      rw [after_removed] at hremoved
      rw [Host.Clean, and_iff_right hgone, dropSession_made, hstill, hremoved,
        and_iff_left (Or.inl ⟨shm, hshm, habove⟩), imp_iff_right rfl]

theorem kill_clean_iff (hkilled : h.killed = false) (hremoved : h.removed = false) (kills : Bool) :
    (h.kill kills).Clean ↔ (kills = true ∨ h.exited = true) ∧ h.made = false := by
  cases kills with
  | true => simp [Host.kill, Host.Clean, hremoved]
  | false => simp [Host.kill, Host.Clean, hkilled, hremoved]

/-- A failed start leaves nothing exactly when its calls fall as `Released` says. -/
theorem start_error_clean_iff (hspawn : a.spawns = true) (hr : start a = some (.error e, h)) :
    h.Clean ↔ a.Released := by
  rcases start_falls hspawn with hnone | ⟨past, m, rest, e', hms, hpast, hm, hstart⟩ | ⟨hall, hstart⟩
  · cases hnone.symm.trans hr
  · have htake : a.moments.takeWhile Moment.goes = past := by
      rw [hms, List.takeWhile_append_of_pos hpast, List.takeWhile_cons_of_neg (by simp [hm]),
        List.append_nil]
    have hdrop : a.moments.dropWhile Moment.goes = m :: rest := by
      rw [hms, List.dropWhile_append_of_pos hpast, List.dropWhile_cons_of_neg (by simp [hm])]
    obtain ⟨hkilled, hremoved⟩ := by_held a.spawned (past ++ [m])
    cases hstart.symm.trans hr
    rw [Attempt.Released, htake, hdrop]
    exact kill_clean_iff hkilled hremoved m.kills
  · have htake : a.moments.takeWhile Moment.goes = a.moments := List.takeWhile_eq_self_iff.mpr hall
    have hdrop : a.moments.dropWhile Moment.goes = [] := List.dropWhile_eq_nil_iff.mpr hall
    obtain ⟨hkilled, hremoved⟩ := by_held a.spawned a.moments
    rw [hr, openFile] at hstart
    rw [Attempt.Released, htake, hdrop]
    simp only
    split_ifs at hstart ⊢ with hopen
    · refine finish_clean_iff ?_ (Bool.and_eq_true_iff.mp hopen).2 hstart.symm
      rw [after_killed]
      exact hkilled
    · cases hstart
      have hclean := kill_clean_iff (h := (a.spawned.by a.moments).after a.openRam.env)
        (by rw [after_killed]; exact hkilled) (by rw [after_removed]; exact hremoved) false
      rw [Bool.false_eq_true, false_or] at hclean
      exact hclean

/-- QEMU has made the RAM file and opened the socket, and the driver's ready line is malformed. -/
def malformedReady : Attempt where
  spawns := true
  stale := false
  rounds := [⟨⟨true, false⟩, true, false, false⟩]
  setReadTimeout := ⟨⟨false, false⟩, true⟩
  tryClone := ⟨⟨false, false⟩, true⟩
  ready := .reply ⟨⟨false, false⟩, false⟩
  openRam := ⟨⟨false, false⟩, true⟩
  removes := true
  shm := some 1074790400
  cov := none
  ramBase := 0
  region := ⟨⟨false, false⟩, false⟩

/-- The child runs on and its RAM file stays. -/
theorem failed_start_left_running : ¬ ∀ (a : Attempt) (e : StartError) (h : Host),
    a.spawns = true → start a = some (.error e, h) → h.Clean := by
  intro hall
  have hclean := hall malformedReady .readReply ⟨false, false, true, false⟩ rfl rfl
  rcases hclean.1 with hexited | hkilled
  · cases hexited
  · cases hkilled

def otherLayout : Attempt := { malformedReady with ready := .reply ⟨⟨false, false⟩, true⟩ }

theorem start_error_clean_iff_other_layout :
    ∃ h, start otherLayout = some (.error .region, h) ∧ h.Clean :=
  ⟨_, rfl, (start_error_clean_iff (a := otherLayout) rfl rfl).mpr
    ⟨rfl, Or.inl ⟨1074790400, rfl, Nat.zero_le _⟩⟩⟩

end KStep.SessionStart
