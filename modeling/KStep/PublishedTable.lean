import KStep.Runs
import Mathlib.Data.List.ReduceOption
import Mathlib.Logic.Function.Basic

/-!
# A table published by its count

One writer stores an entry behind the last one and then raises the count. Readers on other
processors load the count and scan the entries below it, one at a time, while the writer goes on.
A scan finds the entries that were published when it loaded the count, in their order.
-/

namespace PublishedTable

open Runs

structure Table (α : Type*) (cap : ℕ) where
  slots : Vector (Option α) cap
  n : ℕ

/-- A scan: the count it loaded, and what it has found in the slots so far. -/
structure Scan (α : Type*) where
  bound : ℕ
  found : List (Option α)

/-- The table, whether its writer has stored an entry it has not counted yet, and the scans. -/
structure Shared (ι α : Type*) (cap : ℕ) where
  table : Table α cap
  storing : Bool
  scan : ι → Option (Scan α)

inductive Label (ι α : Type*)
  | store (a : α)
  | publish
  | load (i : ι)
  | read (i : ι)
  | finish (i : ι)

variable {ι α : Type*} {cap : ℕ}

def Table.empty : Table α cap := ⟨Vector.replicate cap none, 0⟩

def Table.at (t : Table α cap) (i : ℕ) : Option α := t.slots.toList[i]?.join

/-- `none` is a store behind the last slot. -/
def Table.store (t : Table α cap) (a : α) : Option (Table α cap) :=
  if h : t.n < cap then some { t with slots := t.slots.set t.n (some a) } else none

def Table.publish (t : Table α cap) : Table α cap := { t with n := t.n + 1 }

def Table.log (t : Table α cap) : List α := (t.slots.toList.take t.n).reduceOption

def Table.Filled (t : Table α cap) : Prop := t.n ≤ cap ∧ t.slots.toList.take t.n = t.log.map some

def Scan.next (sc : Scan α) (t : Table α cap) : Scan α :=
  { sc with found := sc.found ++ [t.at sc.found.length] }

def Shared.start : Shared ι α cap := ⟨.empty, false, fun _ => none⟩

section Step

variable [DecidableEq ι]

def step (s : Shared ι α cap) : Label ι α → Option (Shared ι α cap)
  | .store a =>
      if s.storing then none
      else (s.table.store a).map fun t => { s with table := t, storing := true }
  | .publish =>
      if s.storing then some { s with table := s.table.publish, storing := false } else none
  | .load i => match s.scan i with
    | some _ => none
    | none => some { s with scan := Function.update s.scan i (some ⟨s.table.n, []⟩) }
  | .read i => match s.scan i with
    | none => none
    | some sc =>
        if sc.found.length < sc.bound then
          some { s with scan := Function.update s.scan i (some (sc.next s.table)) }
        else none
  | .finish i => match s.scan i with
    | none => none
    | some _ => some { s with scan := Function.update s.scan i none }

end Step

structure Inv (s : Shared ι α cap) : Prop where
  filled : s.table.Filled
  stored : s.storing = true → ∃ a, s.table.n < cap ∧ s.table.at s.table.n = some a
  scans : ∀ i sc, s.scan i = some sc → sc.found.length ≤ sc.bound ∧ sc.bound ≤ s.table.n ∧
    sc.found = (s.table.log.take sc.found.length).map some

variable {t : Table α cap} {s u v : Shared ι α cap} {a : α} {i : ι} {sc : Scan α}

theorem length_log (h : t.Filled) : t.log.length = t.n := by
  have hlen := congrArg List.length h.2
  rw [List.length_take, Vector.length_toList, Nat.min_eq_left h.1, List.length_map] at hlen
  exact hlen.symm

theorem at_eq (h : t.Filled) {k : ℕ} (hk : k < t.n) : t.at k = t.log[k]? := by
  have hget := congrArg (fun l => l[k]?) h.2
  simp only [List.getElem?_take, if_pos hk, List.getElem?_map] at hget
  rw [Table.at, hget]
  rcases t.log[k]? with _ | a <;> rfl

theorem filled_empty : (Table.empty : Table α cap).Filled := ⟨Nat.zero_le _, rfl⟩

theorem inv_start : Inv (Shared.start : Shared ι α cap) where
  filled := filled_empty
  stored h := by cases h
  scans i sc h := by cases h

/-- A store leaves what is below the count, and is found behind it. -/
theorem store_spec {t' : Table α cap} (h : t.store a = some t') :
    t.n < cap ∧ t'.n = t.n ∧ t'.slots.toList.take t.n = t.slots.toList.take t.n ∧
      t'.at t.n = some a := by
  rw [Table.store] at h
  split_ifs at h with hn
  cases h
  refine ⟨hn, rfl, ?_, ?_⟩
  · simp only [Vector.toList_set]
    rw [List.take_set_of_le (le_refl t.n)]
  · simp only [Table.at, Vector.toList_set]
    rw [List.getElem?_set_self (by rw [Vector.length_toList]; exact hn)]
    rfl

theorem log_store {t' : Table α cap} (h : t.store a = some t') : t'.log = t.log := by
  obtain ⟨-, hn, htake, -⟩ := store_spec h
  rw [Table.log, Table.log, hn, htake]

theorem filled_store {t' : Table α cap} (hf : t.Filled) (h : t.store a = some t') : t'.Filled := by
  obtain ⟨-, hn, htake, -⟩ := store_spec h
  refine ⟨by rw [hn]; exact hf.1, ?_⟩
  rw [log_store h, hn, htake]
  exact hf.2

/-- Counting an entry that is there adds it to the log. -/
theorem publish_spec (hf : t.Filled) (hn : t.n < cap) (ha : t.at t.n = some a) :
    t.publish.Filled ∧ t.publish.log = t.log ++ [a] := by
  have hlast : t.slots.toList[t.n]? = some (some a) := by
    rw [Table.at] at ha
    rcases hget : t.slots.toList[t.n]? with _ | b
    · rw [hget] at ha
      cases ha
    · rw [hget] at ha
      exact congrArg some ha
  have htake : t.slots.toList.take (t.n + 1) = (t.log ++ [a]).map some := by
    rw [List.take_add_one, hlast, hf.2, List.map_append]
    rfl
  have hlog : t.publish.log = t.log ++ [a] := by
    change (t.slots.toList.take (t.n + 1)).reduceOption = _
    rw [htake, List.reduceOption, List.filterMap_map]
    exact List.filterMap_some
  refine ⟨⟨hn, ?_⟩, hlog⟩
  rw [hlog]
  exact htake

/-- What a scan finds next is the next entry of the log. -/
theorem next_found (hf : t.Filled) (hlt : sc.found.length < sc.bound) (hle : sc.bound ≤ t.n)
    (hfound : sc.found = (t.log.take sc.found.length).map some) :
    (sc.next t).found = (t.log.take (sc.next t).found.length).map some := by
  have hk : sc.found.length < t.log.length := by
    rw [length_log hf]
    omega
  have hnext : (sc.next t).found.length = sc.found.length + 1 := by
    rw [Scan.next, List.length_append, List.length_singleton]
  rw [hnext, List.take_add_one, List.map_append, ← hfound, Scan.next, at_eq hf (by omega),
    List.getElem?_eq_getElem hk]
  rfl

section Step

variable [DecidableEq ι]

/-- What a step does to the table: it stays, an entry is stored, or the stored one is counted. -/
theorem step_table {e : Label ι α} (h : step s e = some u) :
    (u.table = s.table ∧ u.storing = s.storing) ∨
      (∃ a, e = .store a ∧ s.storing = false ∧ s.table.store a = some u.table ∧
        u.storing = true ∧ u.scan = s.scan) ∨
      (e = .publish ∧ s.storing = true ∧ u.table = s.table.publish ∧ u.storing = false ∧
        u.scan = s.scan) := by
  cases e with
  | store a =>
      simp only [step] at h
      split_ifs at h with hstoring
      obtain ⟨t, ht, rfl⟩ := Option.map_eq_some_iff.mp h
      exact Or.inr (Or.inl ⟨a, rfl, by simpa using hstoring, ht, rfl, rfl⟩)
  | publish =>
      simp only [step] at h
      split_ifs at h with hstoring
      cases h
      exact Or.inr (Or.inr ⟨rfl, hstoring, rfl, rfl, rfl⟩)
  | load i =>
      simp only [step] at h
      split at h
      · cases h
      · cases h
        exact Or.inl ⟨rfl, rfl⟩
  | read i =>
      simp only [step] at h
      split at h
      · cases h
      · split_ifs at h
        cases h
        exact Or.inl ⟨rfl, rfl⟩
  | finish i =>
      simp only [step] at h
      split at h
      · cases h
      · cases h
        exact Or.inl ⟨rfl, rfl⟩

theorem count_spec (h : step s .publish = some u) :
    s.storing = true ∧ u.table = s.table.publish ∧ u.scan = s.scan := by
  simp only [step] at h
  split_ifs at h with hstoring
  cases h
  exact ⟨hstoring, rfl, rfl⟩

theorem load_spec (h : step s (.load i) = some u) :
    u.table = s.table ∧ u.scan = Function.update s.scan i (some ⟨s.table.n, []⟩) ∧
      s.scan i = none := by
  simp only [step] at h
  split at h
  · cases h
  · cases h
    exact ⟨rfl, rfl, ‹_›⟩

theorem read_spec (h : step s (.read i) = some u) (hsc : s.scan i = some sc) :
    u.table = s.table ∧ u.scan = Function.update s.scan i (some (sc.next s.table)) ∧
      sc.found.length < sc.bound := by
  simp only [step, hsc] at h
  split_ifs at h with hlt
  cases h
  exact ⟨rfl, rfl, hlt⟩

theorem finish_spec (h : step s (.finish i) = some u) :
    u.table = s.table ∧ u.scan = Function.update s.scan i none ∧ (s.scan i).isSome := by
  simp only [step] at h
  split at h
  · cases h
  · rename_i hsc
    cases h
    exact ⟨rfl, rfl, by rw [hsc]; rfl⟩

/-- What a step does to a scan: it stays, or begins, goes on or ends by a label of its own. -/
theorem step_scan {e : Label ι α} (h : step s e = some u) (i : ι) :
    u.scan i = s.scan i ∨
      (e = .load i ∧ s.scan i = none ∧ u.scan i = some ⟨s.table.n, []⟩) ∨
      (∃ sc, e = .read i ∧ s.scan i = some sc ∧ sc.found.length < sc.bound ∧
        u.scan i = some (sc.next s.table)) ∨
      (e = .finish i ∧ u.scan i = none) := by
  cases e with
  | store a =>
      simp only [step] at h
      split_ifs at h
      obtain ⟨t, ht, rfl⟩ := Option.map_eq_some_iff.mp h
      exact Or.inl rfl
  | publish =>
      simp only [step] at h
      split_ifs at h
      cases h
      exact Or.inl rfl
  | load j =>
      simp only [step] at h
      split at h
      · cases h
      · rename_i hnone
        cases h
        by_cases hij : i = j
        · subst hij
          exact Or.inr (Or.inl ⟨rfl, hnone, Function.update_self _ _ _⟩)
        · exact Or.inl (Function.update_of_ne hij _ _)
  | read j =>
      simp only [step] at h
      split at h
      · cases h
      · rename_i sc hsome
        split_ifs at h with hlt
        cases h
        by_cases hij : i = j
        · subst hij
          exact Or.inr (Or.inr (Or.inl ⟨sc, rfl, hsome, hlt, Function.update_self _ _ _⟩))
        · exact Or.inl (Function.update_of_ne hij _ _)
  | finish j =>
      simp only [step] at h
      split at h
      · cases h
      · cases h
        by_cases hij : i = j
        · subst hij
          exact Or.inr (Or.inr (Or.inr ⟨rfl, Function.update_self _ _ _⟩))
        · exact Or.inl (Function.update_of_ne hij _ _)

/-- The log only grows. -/
theorem log_extends {e : Label ι α} (h : step s e = some u) (hs : Inv s) :
    s.table.log <+: u.table.log := by
  rcases step_table h with ⟨htable, -⟩ | ⟨a, -, -, hstore, -⟩ | ⟨-, hstoring, htable, -⟩
  · rw [htable]
  · rw [log_store hstore]
  · obtain ⟨a, hn, ha⟩ := hs.stored hstoring
    rw [htable, (publish_spec hs.filled hn ha).2]
    exact List.prefix_append _ _

theorem inv_step {e : Label ι α} (h : step s e = some u) (hs : Inv s) : Inv u := by
  have hlog := log_extends h hs
  have hfilled : u.table.Filled ∧
      (u.storing = true → ∃ a, u.table.n < cap ∧ u.table.at u.table.n = some a) := by
    rcases step_table h with ⟨htable, hstoring⟩ | ⟨a, -, -, hstore, -⟩ | ⟨-, hstoring, htable, hoff, -⟩
    · rw [htable, hstoring]
      exact ⟨hs.filled, hs.stored⟩
    · obtain ⟨hn, hsame, -, hat⟩ := store_spec hstore
      refine ⟨filled_store hs.filled hstore, fun _ => ⟨a, ?_, ?_⟩⟩
      · rw [hsame]
        exact hn
      · rw [hsame]
        exact hat
    · obtain ⟨a, hn, ha⟩ := hs.stored hstoring
      rw [htable, hoff]
      exact ⟨(publish_spec hs.filled hn ha).1, fun hfalse => by cases hfalse⟩
  have hcount : s.table.n ≤ u.table.n := by
    rw [← length_log hs.filled, ← length_log hfilled.1]
    exact hlog.length_le
  have hkeep (sc : Scan α) (hle : sc.found.length ≤ s.table.n)
      (hfound : sc.found = (s.table.log.take sc.found.length).map some) :
      sc.found = (u.table.log.take sc.found.length).map some := by
    obtain ⟨rest, hrest⟩ := hlog
    rw [← hrest, List.take_append_of_le_length (by rw [length_log hs.filled]; exact hle)]
    exact hfound
  refine ⟨hfilled.1, hfilled.2, fun i sc hscan => ?_⟩
  rcases step_scan h i with hsame | ⟨-, -, hload⟩ | ⟨sc', -, hold, hlt, hread⟩ | ⟨-, hnone⟩
  · rw [hsame] at hscan
    obtain ⟨hfound, hbound, heq⟩ := hs.scans i sc hscan
    exact ⟨hfound, hbound.trans hcount, hkeep sc (hfound.trans hbound) heq⟩
  · rw [hload] at hscan
    cases hscan
    exact ⟨Nat.zero_le _, hcount, rfl⟩
  · rw [hread] at hscan
    cases hscan
    obtain ⟨-, hbound, heq⟩ := hs.scans i sc' hold
    have hlen : (sc'.next s.table).found.length = sc'.found.length + 1 := by
      rw [Scan.next, List.length_append, List.length_singleton]
    have hnext := next_found hs.filled hlt hbound heq
    have hle : (sc'.next s.table).found.length ≤ s.table.n := by omega
    exact ⟨by rw [hlen]; exact hlt, hbound.trans hcount, hkeep _ hle hnext⟩
  · rw [hnone] at hscan
    cases hscan

theorem run_inv {l : List (Label ι α)} (h : run step s l = some u) (hs : Inv s) : Inv u :=
  run_invariant (fun _ _ _ hstep => inv_step hstep) h hs

theorem run_log_extends {l : List (Label ι α)} (h : run step s l = some u) (hs : Inv s) :
    s.table.log <+: u.table.log := by
  induction l generalizing s with
  | nil =>
      cases h
      exact List.prefix_rfl
  | cons e l ih =>
      obtain ⟨v, hv, hrun⟩ := run_cons h
      exact (log_extends hv hs).trans (ih hrun (inv_step hv hs))

/-- A scan that goes on keeps the count it has loaded. -/
theorem run_bound {l : List (Label ι α)} (h : run step s l = some u) (hscan : s.scan i = some sc)
    (hfinish : Label.finish i ∉ l) : ∃ sc', u.scan i = some sc' ∧ sc'.bound = sc.bound := by
  induction l generalizing s sc with
  | nil =>
      cases h
      exact ⟨sc, hscan, rfl⟩
  | cons e l ih =>
      obtain ⟨v, hv, hrun⟩ := run_cons h
      have hrest : Label.finish i ∉ l := fun hmem => hfinish (List.mem_cons_of_mem e hmem)
      rcases step_scan hv i with hsame | ⟨-, hnone, -⟩ | ⟨sc', -, hold, -, hread⟩ | ⟨rfl, -⟩
      · exact ih hrun (hsame.trans hscan) hrest
      · rw [hscan] at hnone
        cases hnone
      · rw [hscan] at hold
        cases hold
        obtain ⟨sc'', hu, hbound⟩ := ih hrun hread hrest
        exact ⟨sc'', hu, hbound⟩
      · exact absurd List.mem_cons_self hfinish

/-- A scan finds, of the entries published when it loaded the count, the first ones, in order. -/
theorem scan_found {l : List (Label ι α)} (hs : Inv s) (hload : step s (.load i) = some u)
    (h : run step u l = some v) (hfinish : Label.finish i ∉ l) :
    ∃ sc, v.scan i = some sc ∧ sc.bound = s.table.n ∧ sc.found.length ≤ sc.bound ∧
      sc.found = (s.table.log.take sc.found.length).map some := by
  have hu := inv_step hload hs
  have hbegin : u.scan i = some ⟨s.table.n, []⟩ ∧ u.table = s.table := by
    obtain ⟨htable, hscan, -⟩ := load_spec hload
    exact ⟨by rw [hscan, Function.update_self], htable⟩
  obtain ⟨sc, hsc, hbound⟩ := run_bound h hbegin.1 hfinish
  obtain ⟨hfound, hle, heq⟩ := (run_inv h hu).scans i sc hsc
  refine ⟨sc, hsc, hbound, hfound, ?_⟩
  obtain ⟨rest, hrest⟩ := run_log_extends h hu
  rw [← hrest, hbegin.2, List.take_append_of_le_length] at heq
  · exact heq
  · rw [length_log hs.filled]
    exact hfound.trans (le_of_eq hbound)

end Step

end PublishedTable
