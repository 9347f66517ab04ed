import KStep.PublishedTable
import Mathlib.Data.List.Nodup

/-!
# The events and their callbacks

An event is a list of callbacks that the controller extends and any CPU may be walking:
`kstep_event_add` stores a callback before it counts it, and `kstep_emit` loads the count before it
calls. An emission calls what was registered when it began, in the order of registration and once
each, whatever is registered meanwhile.
-/

namespace KStep.Events

open PublishedTable Runs

def kstepEventSubs : ℕ := 8

abbrev KstepEvent (φ : Type*) := Table φ kstepEventSubs

variable {ι φ : Type*}

/-- The registered callbacks are distinct, also with the one that is being added. -/
structure Registered (s : Shared ι φ kstepEventSubs) : Prop where
  inv : Inv s
  nodup : s.table.log.Nodup
  fresh : s.storing = true → ∀ fn ∈ s.table.log, s.table.at s.table.n ≠ some fn

theorem registered_start : Registered (Shared.start : Shared ι φ kstepEventSubs) where
  inv := inv_start
  nodup := List.nodup_nil
  fresh h := by cases h

variable [DecidableEq φ]

/-- `kstep_event_add` up to the release store: `none` when the callback is there, or there is no
room and the kernel warns. -/
def eventStore (ev : KstepEvent φ) (fn : φ) : Option (KstepEvent φ) :=
  if (List.range ev.n).any fun i => decide (ev.at i = some fn) then none
  else if ev.n = kstepEventSubs then none
  else ev.store fn

def kstepEventAdd (ev : KstepEvent φ) (fn : φ) : KstepEvent φ × Bool :=
  match eventStore ev fn with
  | none => (ev, false)
  | some ev' => (ev'.publish, true)

/-- The controller adds callbacks one after another; the emissions on the CPUs go on between any two
of its stores. -/
inductive Label (ι φ : Type*)
  | add (fn : φ)
  | publish
  | load (cpu : ι)
  | call (cpu : ι)
  | done (cpu : ι)

/-- The event, and what each CPU's emission has called so far: the slots' contents. -/
abbrev State (ι φ : Type*) := Shared ι φ kstepEventSubs

section Step

variable [DecidableEq ι]

def step (s : State ι φ) : Label ι φ → Option (State ι φ)
  | .add fn =>
      if s.storing then none
      else match eventStore s.table fn with
        | none => some s
        | some ev => some { s with table := ev, storing := true }
  | .publish => PublishedTable.step s .publish
  | .load cpu => PublishedTable.step s (.load cpu)
  | .call cpu => PublishedTable.step s (.read cpu)
  | .done cpu => match s.scan cpu with
    | none => none
    | some sc => if sc.found.length = sc.bound then PublishedTable.step s (.finish cpu) else none

end Step

variable {ev ev' : KstepEvent φ} {fn : φ} {s t u : State ι φ}

theorem any_at_iff (hf : ev.Filled) :
    ((List.range ev.n).any fun i => decide (ev.at i = some fn)) = true ↔ fn ∈ ev.log := by
  rw [List.any_eq_true]
  constructor
  · rintro ⟨i, hi, hat⟩
    rw [decide_eq_true_eq, at_eq hf (List.mem_range.mp hi)] at hat
    exact List.mem_of_getElem? hat
  · intro hmem
    obtain ⟨i, hi, hget⟩ := List.getElem_of_mem hmem
    have hn : i < ev.n := by
      rw [← length_log hf]
      exact hi
    refine ⟨i, List.mem_range.mpr hn, ?_⟩
    rw [decide_eq_true_eq, at_eq hf hn, List.getElem?_eq_getElem hi, hget]

/-- A callback is stored when it is not registered and there is room. -/
theorem eventStore_eq_some (hf : ev.Filled) (h : eventStore ev fn = some ev') :
    fn ∉ ev.log ∧ ev.store fn = some ev' := by
  rw [eventStore] at h
  split_ifs at h with hany hfull
  exact ⟨fun hmem => hany ((any_at_iff hf).mpr hmem), h⟩

theorem eventStore_eq_none_iff (hf : ev.Filled) :
    eventStore ev fn = none ↔ fn ∈ ev.log ∨ ev.n = kstepEventSubs := by
  rw [eventStore]
  split_ifs with hany hfull
  · exact iff_of_true rfl (Or.inl ((any_at_iff hf).mp hany))
  · exact iff_of_true rfl (Or.inr hfull)
  · have hlt : ev.n < kstepEventSubs := Nat.lt_of_le_of_ne hf.1 hfull
    rw [Table.store, dif_pos hlt]
    refine iff_of_false (by rintro ⟨⟩) ?_
    rintro (hmem | hn)
    · exact hany ((any_at_iff hf).mpr hmem)
    · exact hfull hn

/-- Registering adds the callback once, behind the others, while there is room. -/
theorem kstepEventAdd_spec (hf : ev.Filled) :
    (kstepEventAdd ev fn).1.Filled ∧
      (kstepEventAdd ev fn).1.log =
        (if fn ∈ ev.log ∨ ev.n = kstepEventSubs then ev.log else ev.log ++ [fn]) ∧
      ((kstepEventAdd ev fn).2 = true ↔ ¬ (fn ∈ ev.log ∨ ev.n = kstepEventSubs)) := by
  rw [kstepEventAdd]
  rcases hstore : eventStore ev fn with _ | ev'
  · have hnone := (eventStore_eq_none_iff hf).mp hstore
    exact ⟨hf, (if_pos hnone).symm, iff_of_false Bool.false_ne_true (not_not.mpr hnone)⟩
  · have hsome : ¬ (fn ∈ ev.log ∨ ev.n = kstepEventSubs) := by
      rw [← eventStore_eq_none_iff hf, hstore]
      rintro ⟨⟩
    obtain ⟨-, hev⟩ := eventStore_eq_some hf hstore
    obtain ⟨hn, hsame, -, hat⟩ := store_spec hev
    have hlt : ev'.n < kstepEventSubs := by
      rw [hsame]
      exact hn
    obtain ⟨hfilled, hlog⟩ := publish_spec (filled_store hf hev) hlt (by rw [hsame]; exact hat)
    rw [log_store hev] at hlog
    rw [if_neg hsome]
    exact ⟨hfilled, hlog, iff_of_true rfl hsome⟩

section Step

variable [DecidableEq ι]

def Means : Label ι φ → PublishedTable.Label ι φ → Prop
  | .add fn, a => a = .store fn
  | .publish, a => a = .publish
  | .load cpu, a => a = .load cpu
  | .call cpu, a => a = .read cpu
  | .done cpu, a => a = .finish cpu

theorem step_simulates (hs : s.table.Filled) {e : Label ι φ} (h : step s e = some t) :
    t = s ∨ ∃ a, Means e a ∧ (∀ fn, a = .store fn → fn ∉ s.table.log) ∧
      PublishedTable.step s a = some t := by
  cases e with
  | add fn =>
      simp only [step] at h
      split_ifs at h with hstoring
      rcases hstore : eventStore s.table fn with _ | ev
      · rw [hstore] at h
        cases h
        exact Or.inl rfl
      · rw [hstore] at h
        cases h
        obtain ⟨hnew, hev⟩ := eventStore_eq_some hs hstore
        refine Or.inr ⟨.store fn, rfl, ?_, ?_⟩
        · rintro fn' ⟨⟩
          exact hnew
        · simp only [PublishedTable.step, if_neg hstoring, hev, Option.map_some]
  | publish => exact Or.inr ⟨_, rfl, (fun _ hadd => by cases hadd), h⟩
  | load cpu => exact Or.inr ⟨_, rfl, (fun _ hadd => by cases hadd), h⟩
  | call cpu => exact Or.inr ⟨_, rfl, (fun _ hadd => by cases hadd), h⟩
  | done cpu =>
      simp only [step] at h
      split at h
      · cases h
      · split_ifs at h
        exact Or.inr ⟨_, rfl, (fun _ hadd => by cases hadd), h⟩

theorem registered_step {e : Label ι φ} (h : step s e = some t) (hs : Registered s) :
    Registered t := by
  rcases step_simulates hs.inv.filled h with rfl | ⟨a, -, hfresh, hstep⟩
  · exact hs
  · have hinv := inv_step hstep hs.inv
    rcases step_table hstep with ⟨htable, hstoring⟩ | ⟨fn, rfl, -, hstore, -⟩ |
      ⟨rfl, hon, htable, hoff, -⟩
    · exact ⟨hinv, htable ▸ hs.nodup, by rw [htable, hstoring]; exact hs.fresh⟩
    · obtain ⟨-, hn, -, hat⟩ := store_spec hstore
      refine ⟨hinv, by rw [log_store hstore]; exact hs.nodup, fun _ fn' hmem heq => ?_⟩
      rw [hn, hat] at heq
      cases heq
      rw [log_store hstore] at hmem
      exact hfresh fn rfl hmem
    · obtain ⟨fn, hn, hat⟩ := hs.inv.stored hon
      have hlog := (publish_spec hs.inv.filled hn hat).2
      refine ⟨hinv, ?_, fun hfalse => by rw [hoff] at hfalse; cases hfalse⟩
      rw [htable, hlog, List.nodup_append]
      refine ⟨hs.nodup, List.nodup_singleton fn, ?_⟩
      intro a ha b hb heq
      rw [List.mem_singleton] at hb
      subst hb
      exact hs.fresh hon a ha (heq ▸ hat)

theorem run_registered {l : List (Label ι φ)} (h : run step s l = some t) (hs : Registered s) :
    Registered t :=
  run_invariant (fun _ _ _ hstep => registered_step hstep) h hs

/-- A run of the event is a run of its table. -/
theorem run_simulates_table {l : List (Label ι φ)} (h : run step s l = some t)
    (hs : Registered s) : ∃ l', run PublishedTable.step s l' = some t ∧
      ∀ a ∈ l', ∃ e ∈ l, Means e a := by
  refine run_simulates id Means (fun _ _ _ => registered_step) (fun s e t hstep hs => ?_) h hs
  rcases step_simulates hs.inv.filled hstep with heq | ⟨a, hmeans, -, ha⟩
  · exact Or.inl heq
  · exact Or.inr ⟨a, hmeans, ha⟩

/-- An emission that began when `s` had its callbacks has called a first part of them, whatever was
registered since, and all of them when it is at its end. -/
theorem emission_calls {l l' : List (Label ι φ)} {cpu : ι}
    (hreach : run step Shared.start l = some s) (hload : step s (.load cpu) = some t)
    (h : run step t l' = some u) (hgoing : .done cpu ∉ l') :
    s.table.log.Nodup ∧ ∃ called : List φ, called <+: s.table.log ∧
      u.scan cpu = some ⟨s.table.log.length, called.map some⟩ ∧
      ((∃ v, step u (.done cpu) = some v) ↔ called = s.table.log) := by
  have hs := run_registered hreach registered_start
  have ht := registered_step hload hs
  obtain ⟨l'', hrun, hlabels⟩ := run_simulates_table h ht
  have hfinish : PublishedTable.Label.finish cpu ∉ l'' := by
    intro hmem
    obtain ⟨e, he, hmeans⟩ := hlabels _ hmem
    cases e with
    | done cpu' =>
        cases hmeans
        exact hgoing he
    | add fn => cases hmeans
    | publish => cases hmeans
    | load cpu' => cases hmeans
    | call cpu' => cases hmeans
  obtain ⟨sc, hscan, hbound, hle, hfound⟩ := scan_found hs.inv hload hrun hfinish
  have hlen := length_log hs.inv.filled
  refine ⟨hs.nodup, s.table.log.take sc.found.length, List.take_prefix _ _, ?_, ?_⟩
  · rw [hscan, hlen, ← hbound, ← hfound]
  · have hdone : (∃ v, step u (.done cpu) = some v) ↔ sc.found.length = sc.bound := by
      simp only [step, PublishedTable.step, hscan]
      split_ifs with hall
      · exact iff_of_true ⟨_, rfl⟩ hall
      · exact iff_of_false (by rintro ⟨v, hv⟩; cases hv) hall
    rw [hdone, hbound, ← hlen, List.take_eq_self_iff]
    rw [hbound, ← hlen] at hle
    exact ⟨fun hall => hall.ge, fun hall => le_antisymm hle hall⟩

theorem emission_calls_registered :
    (∃ s t u : State ℕ ℕ, run step Shared.start [.add 1, .publish, .add 1] = some s ∧
      step s (.load 0) = some t ∧ run step t [.add 2, .call 0, .publish] = some u) ∧
    ∀ s t u : State ℕ ℕ, run step Shared.start [.add 1, .publish, .add 1] = some s →
      step s (.load 0) = some t → run step t [.add 2, .call 0, .publish] = some u →
      s.table.log.Nodup ∧ ∃ called : List ℕ, called <+: s.table.log ∧
        u.scan 0 = some ⟨s.table.log.length, called.map some⟩ ∧
        ((∃ v, step u (.done 0) = some v) ↔ called = s.table.log) := by
  refine ⟨⟨_, _, _, rfl, rfl, rfl⟩, fun s t u hreach hload hrun => ?_⟩
  exact emission_calls hreach hload hrun (by simp)

end Step

end KStep.Events
