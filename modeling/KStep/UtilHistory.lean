import KStep.UtilDecay

/-!
# What util_decay misses

A session creates tasks, moves them, changes their policy and lets them exit, with tick ends in
between. A fall of a CPU's utilization between two tick ends, with no task touching the CPU
meanwhile, is reported exactly when no task of the session had exited on the CPU before the first
of the two.
-/

namespace KStep.UtilDecay

open KStep.Topology Cli Runs

structure Session where
  tasks : List Task
  checker : Checker
  enabled : Bool

inductive Event
  | create (pid cpu policy : ℕ)
  | move (i cpu : ℕ)
  | setPolicy (i policy : ℕ)
  | exit (i : ℕ)
  /-- `kstep_check_util_decay_enable` -/
  | enable
  | tickEnd (k : ℕ) (rq : ℕ → Rq)

def Event.isTickEnd : Event → Bool
  | .tickEnd _ _ => true
  | _ => false

/-- A change of a task that has not exited. -/
def Session.change (s : Session) (i : ℕ) (f : Task → Task) : Option Session :=
  match s.tasks[i]? with
  | none => none
  | some p => if p.exited then none else some { s with tasks := s.tasks.set i (f p) }

def step (s : Session) : Event → Option Session
  | .create pid cpu policy =>
      if s.tasks.length < kstepShmTasks ∧ pid ≠ 0 then
        some { s with tasks := s.tasks ++ [⟨pid, cpu, policy, false⟩] } else none
  | .move i cpu => s.change i fun p => { p with cpu := cpu }
  | .setPolicy i policy => s.change i fun p => { p with policy := policy }
  | .exit i => s.change i fun p => { p with exited := true }
  | .enable => some { s with enabled := true }
  | .tickEnd k rq => some (if s.enabled then
      { s with checker := (onTickEnd k rq s.tasks s.checker).2 } else s)

def warnings (s : Session) (k : ℕ) (rq : ℕ → Rq) : List Warning :=
  if s.enabled then (onTickEnd k rq s.tasks s.checker).1 else []

def Session.boot : Session where
  tasks := []
  checker := ⟨fun _ => ⟨0, 0, 0⟩, fun _ => ⟨0, 0, false⟩⟩
  enabled := false

/-- The event is of a task on `c`, or moves one there. -/
def Touches (s : Session) (c : ℕ) : Event → Prop
  | .create _ cpu _ => cpu = c
  | .move i cpu => cpu = c ∨ ∃ p ∈ s.tasks[i]?, p.cpu = c
  | .setPolicy i _ => ∃ p ∈ s.tasks[i]?, p.cpu = c
  | .exit i => ∃ p ∈ s.tasks[i]?, p.cpu = c
  | .enable => False
  | .tickEnd _ _ => False

variable {s t : Session} {e : Event} {c k : ℕ} {rq : ℕ → Rq}

structure Changed (s t : Session) (e : Event) (i : ℕ) (p q : Task) : Prop where
  at_slot : s.tasks[i]? = some p
  table : t = { s with tasks := s.tasks.set i q }
  pid : q.pid = p.pid
  away : ∀ c, ¬ Touches s c e → p.cpu ≠ c ∧ q.cpu ≠ c

theorem change_eq_some {i : ℕ} {f : Task → Task} (h : s.change i f = some t) :
    ∃ p, s.tasks[i]? = some p ∧ t = { s with tasks := s.tasks.set i (f p) } := by
  rw [Session.change] at h
  split at h
  · cases h
  next p hp =>
    split at h
    · cases h
    · cases h
      exact ⟨p, hp, rfl⟩

theorem step_cases (h : step s e = some t) :
    (∃ pid cpu policy, e = .create pid cpu policy ∧ s.tasks.length < kstepShmTasks ∧ pid ≠ 0 ∧
      t = { s with tasks := s.tasks ++ [⟨pid, cpu, policy, false⟩] }) ∨
    (∃ i p q, Changed s t e i p q) ∨ (e = .enable ∧ t = { s with enabled := true }) ∨
    ∃ k rq, e = .tickEnd k rq ∧ t = if s.enabled then
      { s with checker := (onTickEnd k rq s.tasks s.checker).2 } else s := by
  cases e with
  | create pid cpu policy =>
      simp only [step] at h
      split at h
      next hroom =>
        cases h
        exact Or.inl ⟨pid, cpu, policy, rfl, hroom.1, hroom.2, rfl⟩
      next => cases h
  | move i cpu =>
      obtain ⟨p, hp, rfl⟩ := change_eq_some h
      refine Or.inr (Or.inl ⟨i, p, _, hp, rfl, rfl, ?_⟩)
      intro c hc
      exact ⟨fun heq => hc (Or.inr ⟨p, hp, heq⟩), fun heq => hc (Or.inl heq)⟩
  | setPolicy i policy =>
      obtain ⟨p, hp, rfl⟩ := change_eq_some h
      refine Or.inr (Or.inl ⟨i, p, _, hp, rfl, rfl, ?_⟩)
      intro c hc
      exact ⟨fun heq => hc ⟨p, hp, heq⟩, fun heq => hc ⟨p, hp, heq⟩⟩
  | exit i =>
      obtain ⟨p, hp, rfl⟩ := change_eq_some h
      refine Or.inr (Or.inl ⟨i, p, _, hp, rfl, rfl, ?_⟩)
      intro c hc
      exact ⟨fun heq => hc ⟨p, hp, heq⟩, fun heq => hc ⟨p, hp, heq⟩⟩
  | enable =>
      cases h
      exact Or.inr (Or.inr (Or.inl ⟨rfl, rfl⟩))
  | tickEnd k rq =>
      cases h
      exact Or.inr (Or.inr (Or.inr ⟨k, rq, rfl, rfl⟩))

/-- The table fits, no task has pid 0, and nothing was seen in the slots past the last task. -/
structure Sound (s : Session) : Prop where
  fits : s.tasks.length ≤ kstepShmTasks
  pids : ∀ p ∈ s.tasks, p.pid ≠ 0
  unseen : ∀ i, s.tasks.length ≤ i → (s.checker.seen i).pid = 0

theorem boot_sound : Sound Session.boot where
  fits := Nat.zero_le _
  pids p hp := by cases hp
  unseen _ _ := rfl

theorem lookAll_zero_seen {tasks : List Task} (w : Checker) (hlen : tasks.length ≤ kstepShmTasks)
    (i : ℕ) :
    (lookAll 0 tasks w).seen i = ((tasks[i]?).map Task.seen).getD (w.seen i) := by
  rw [lookAll_seen w (by omega), if_neg (Nat.not_lt_zero i), Nat.sub_zero]

theorem step_sound (h : step s e = some t) (hs : Sound s) : Sound t := by
  rcases step_cases h with ⟨pid, cpu, policy, -, hroom, hpid, rfl⟩ | ⟨i, p, q, hchange⟩ |
    ⟨-, rfl⟩ | ⟨k, rq, -, rfl⟩
  · refine ⟨?_, ?_, ?_⟩
    · rw [List.length_append, List.length_singleton]
      exact hroom
    · intro p hp
      rcases List.mem_append.mp hp with hp | hp
      · exact hs.pids p hp
      · rw [List.mem_singleton.mp hp]
        exact hpid
    · intro i hi
      rw [List.length_append, List.length_singleton] at hi
      exact hs.unseen i (by omega)
  · obtain ⟨hslot, rfl, hpid, -⟩ := hchange
    refine ⟨?_, ?_, ?_⟩
    · rw [List.length_set]
      exact hs.fits
    · intro r hr
      rcases List.mem_or_eq_of_mem_set hr with hr | rfl
      · exact hs.pids r hr
      · rw [hpid]
        exact hs.pids p (List.mem_of_getElem? hslot)
    · intro j hj
      rw [List.length_set] at hj
      exact hs.unseen j hj
  · exact ⟨hs.fits, hs.pids, hs.unseen⟩
  · split
    · refine ⟨hs.fits, hs.pids, ?_⟩
      intro i hi
      change ((lookAll 0 s.tasks s.checker).seen i).pid = 0
      rw [lookAll_zero_seen _ hs.fits, List.getElem?_eq_none hi]
      exact hs.unseen i hi
    · exact hs

/-- The tasks on `c` are the same ones, unchanged, and none came. -/
structure Kept (c : ℕ) (before after : List Task) : Prop where
  old : ∀ (i : ℕ) (p : Task), before[i]? = some p →
    ∃ q : Task, after[i]? = some q ∧ q.pid = p.pid ∧ (p.cpu = c ∨ q.cpu = c → q = p)
  new : ∀ (i : ℕ) (q : Task), before.length ≤ i → after[i]? = some q → q.cpu ≠ c

theorem Kept.refl (c : ℕ) (tasks : List Task) : Kept c tasks tasks where
  old i p hp := ⟨p, hp, rfl, fun _ => rfl⟩
  new i q hi hq := by
    rw [List.getElem?_eq_none hi] at hq
    cases hq

theorem Kept.append {before after : List Task} {p : Task} (h : Kept c before after)
    (hp : p.cpu ≠ c) : Kept c before (after ++ [p]) where
  old i r hr := by
    obtain ⟨q, hq, hsame⟩ := h.old i r hr
    refine ⟨q, ?_, hsame⟩
    rw [List.getElem?_append_left (List.getElem?_eq_some_iff.mp hq).1]
    exact hq
  new i q hi hq := by
    by_cases hlt : i < after.length
    · rw [List.getElem?_append_left hlt] at hq
      exact h.new i q hi hq
    · rw [List.getElem?_append_right (by omega)] at hq
      rw [List.mem_singleton.mp (List.mem_of_getElem? hq)]
      exact hp

theorem Kept.set {before after : List Task} {i : ℕ} {p q : Task} (h : Kept c before after)
    (hp : after[i]? = some p) (hpid : q.pid = p.pid) (hpc : p.cpu ≠ c) (hqc : q.cpu ≠ c) :
    Kept c before (after.set i q) where
  old j r hr := by
    obtain ⟨r', hr', hpid', hsame⟩ := h.old j r hr
    by_cases hij : i = j
    · subst hij
      obtain rfl : p = r' := Option.some.inj (hp.symm.trans hr')
      refine ⟨q, List.getElem?_set_self (List.getElem?_eq_some_iff.mp hp).1, hpid.trans hpid', ?_⟩
      rintro (hrc | hc)
      · exact absurd (hsame (Or.inl hrc) ▸ hrc) hpc
      · exact absurd hc hqc
    · exact ⟨r', by rw [List.getElem?_set_ne hij]; exact hr', hpid', hsame⟩
  new j r hj hr := by
    by_cases hij : i = j
    · subst hij
      rw [List.getElem?_set_self (List.getElem?_eq_some_iff.mp hp).1] at hr
      cases hr
      exact hqc
    · rw [List.getElem?_set_ne hij] at hr
      exact h.new j r hj hr

/-- What an event that is no tick end and does not touch `c` leaves as it is. -/
structure Undisturbed (c : ℕ) (s t : Session) : Prop where
  kept : Kept c s.tasks t.tasks
  checker : t.checker = s.checker
  enabled : s.enabled = true → t.enabled = true

theorem step_undisturbed {s₁ : Session} (he : e.isTickEnd = false) (hc : ¬ Touches s c e)
    (h : step s e = some t) (hs : Undisturbed c s₁ s) : Undisturbed c s₁ t := by
  rcases step_cases h with ⟨pid, cpu, policy, rfl, -, -, rfl⟩ | ⟨i, p, q, hchange⟩ |
    ⟨-, rfl⟩ | ⟨k, rq, rfl, -⟩
  · exact ⟨hs.kept.append hc, hs.checker, hs.enabled⟩
  · obtain ⟨hslot, rfl, hpid, haway⟩ := hchange
    obtain ⟨hpc, hqc⟩ := haway c hc
    exact ⟨hs.kept.set hslot hpid hpc hqc, hs.checker, hs.enabled⟩
  · exact ⟨hs.kept, hs.checker, fun _ => rfl⟩
  · cases he

def Between (c : ℕ) (s : Session) (e : Event) : Prop := e.isTickEnd = false ∧ ¬ Touches s c e

theorem run_undisturbed {m : List Event} (h : run step s m = some t)
    (hm : Always step (Between c) s m) : Undisturbed c s t :=
  run_invariant_of_always (fun _ _ _ hP hstep => step_undisturbed hP.1 hP.2 hstep) h hm
    ⟨Kept.refl c s.tasks, rfl, id⟩

/-- After a tick end the rule has seen every task where it is. -/
theorem voids_iff_exited {before after : List Task} {w : Checker} (hkept : Kept c before after)
    (hseen : ∀ i p, before[i]? = some p → w.seen i = p.seen)
    (hunseen : ∀ i, before.length ≤ i → (w.seen i).pid = 0) (hpids : ∀ p ∈ after, p.pid ≠ 0) :
    (∀ i q, after[i]? = some q → ¬ Voids (w.seen i) q c) ↔
      ∀ p ∈ before, p.exited → p.cpu ≠ c := by
  constructor
  · intro h p hp hexited hcpu
    obtain ⟨i, hi⟩ := List.mem_iff_getElem?.mp hp
    obtain ⟨q, hq, -, hsame⟩ := hkept.old i p hi
    obtain rfl := hsame (Or.inl hcpu)
    refine h i q hq ?_
    have hold : ¬ q.seen.pid ≠ q.pid := not_ne_iff.mpr rfl
    rw [hseen i q hi, Voids, if_neg hold]
    exact ⟨Or.inr (Or.inr hexited), Or.inr hcpu.symm⟩
  · intro h i q hq hvoid
    by_cases hi : before.length ≤ i
    · have hnew : (w.seen i).pid ≠ q.pid := by
        rw [hunseen i hi]
        exact (hpids q (List.mem_of_getElem? hq)).symm
      rw [Voids, if_pos hnew] at hvoid
      exact hkept.new i q hi hq hvoid.symm
    · obtain ⟨p, hp⟩ : ∃ p, before[i]? = some p := ⟨_, List.getElem?_eq_getElem (by omega)⟩
      obtain ⟨q', hq', hpid, hsame⟩ := hkept.old i p hp
      obtain rfl : q = q' := Option.some.inj (hq.symm.trans hq')
      have hold : ¬ p.seen.pid ≠ q.pid := not_ne_iff.mpr hpid.symm
      rw [hseen i p hp, Voids, if_neg hold] at hvoid
      have htouch : p.cpu = c ∨ q.cpu = c :=
        hvoid.2.imp (fun heq => heq.symm) (fun heq => heq.symm)
      obtain rfl := hsame htouch
      have hexited : q.exited = true := by
        rcases hvoid.1 with hne | hne | hexited
        · exact absurd rfl hne
        · exact absurd rfl hne
        · exact hexited
      exact h q (List.mem_of_getElem? hp) hexited (or_self_iff.mp htouch)

/-- Between two tick ends at which the rule is enabled, with no task created on `c`, moved to or
from it, changing policy or exiting on it, a fall of `c`'s utilization is reported exactly when no
task had exited on `c` before the first of them. -/
theorem fall_reported_iff {l m : List Event} {s₁ s₁' s₂ : Session} {k' : ℕ} {rq' : ℕ → Rq}
    (hrun : run step Session.boot l = some s₁) (henabled : s₁.enabled = true)
    (hfirst : step s₁ (.tickEnd k rq) = some s₁') (hbetween : run step s₁' m = some s₂)
    (hm : Always step (Between c) s₁' m) (hc : c ∈ testCpus k) (hc' : c ∈ testCpus k')
    (hfell : Fell (observe (rq c)) (observe (rq' c))) :
    (∃ w ∈ warnings s₂ k' rq', w.cpu = c) ↔ ∀ p ∈ s₁.tasks, p.exited → p.cpu ≠ c := by
  have hsound₁ : Sound s₁ := run_invariant (fun _ _ _ => step_sound) hrun boot_sound
  have hsound₁' : Sound s₁' := step_sound hfirst hsound₁
  have hsound₂ : Sound s₂ := run_invariant (fun _ _ _ => step_sound) hbetween hsound₁'
  obtain ⟨hkept, hchecker, hon⟩ := run_undisturbed hbetween hm
  simp only [step, henabled, if_true, Option.some.injEq] at hfirst
  subst hfirst
  have hseen : ∀ i p, s₁.tasks[i]? = some p →
      (onTickEnd k rq s₁.tasks s₁.checker).2.seen i = p.seen := by
    intro i p hp
    change (lookAll 0 s₁.tasks s₁.checker).seen i = p.seen
    rw [lookAll_zero_seen _ hsound₁.fits, hp]
    rfl
  have hlast : s₂.checker.last c = observe (rq c) := by
    rw [hchecker]
    exact if_pos hc
  obtain ⟨hcfs, hrt, hvalid⟩ :=
    lookAll_last s₂.checker (i := 0) (by rw [Nat.zero_add]; exact hsound₂.fits) c
  have hfell' : Fell ((lookAll 0 s₂.tasks s₂.checker).last c) (observe (rq' c)) := by
    rw [Fell, hcfs, hrt, hlast]
    exact hfell
  have hbase : (observe (rq c)).valid = true := rfl
  rw [warnings, if_pos (hon rfl), exists_warning_iff hc', and_iff_left hfell', hvalid, hlast,
    and_iff_right hbase]
  simp only [Nat.zero_add, hchecker]
  exact voids_iff_exited hkept hseen hsound₁'.unseen hsound₂.pids

def fairUtil (util : ℕ) (_ : ℕ) : Rq := ⟨util, 0, [], 0⟩

def exitOnOne : List Event := [.create 101 1 0, .create 102 1 0, .exit 0, .enable]

/-- A fall is missed for ever on a CPU where a task of the session has exited. -/
theorem fall_missed : ¬ ∀ (l m : List Event) (s₁ s₁' s₂ : Session) (c k k' : ℕ) (rq rq' : ℕ → Rq),
    run step Session.boot l = some s₁ → s₁.enabled = true →
    step s₁ (.tickEnd k rq) = some s₁' → run step s₁' m = some s₂ →
    Always step (Between c) s₁' m → c ∈ testCpus k → c ∈ testCpus k' →
    Fell (observe (rq c)) (observe (rq' c)) → ∃ w ∈ warnings s₂ k' rq', w.cpu = c := by
  intro h
  obtain ⟨w, hw, -⟩ := h exitOnOne [] _ _ _ 1 1 1 (fairUtil 1024) (fairUtil 0) rfl rfl rfl rfl
    trivial (by decide) (by decide) (by decide)
  cases hw

/-- The same fall on CPU 2 is reported. -/
theorem fall_reported_iff_cpu_two : ∃ s, run step Session.boot exitOnOne = some s ∧
    ∃ s', step s (.tickEnd 2 (fairUtil 1024)) = some s' ∧
      ∃ w ∈ warnings s' 2 (fairUtil 0), w.cpu = 2 :=
  ⟨_, rfl, _, rfl, (fall_reported_iff (l := exitOnOne) (m := []) rfl rfl rfl rfl trivial
    (by decide) (by decide) (by decide)).mpr (by decide)⟩

end KStep.UtilDecay
