import KStep.Runs
import Mathlib.Logic.Function.Basic
import Mathlib.Data.List.TakeDrop

/-!
# A buffer whose slots are claimed

Producers on many processors claim the slots of a bounded buffer by incrementing a shared counter and
then store their entries. The consumer exchanges the counter for zero and takes the entries that were
claimed. While nobody claims beside the consumer, the buffer is a list of the first entries claimed
since the last exchange.
-/

namespace ClaimBuffer

open Runs

def maxCount : ℤ := 0x7fffffff

def increment (n : ℤ) : ℤ := if n = maxCount then -maxCount - 1 else n + 1

/-- The slots, the counter, the entries that are claimed and not stored yet, how many entries the
consumer takes and how many it has taken. -/
structure State (ι α : Type*) (cap : ℕ) where
  slots : Vector (Option α) cap
  next : ℤ
  window : ι → Option (ℤ × α)
  drain : Option (ℕ × ℕ)

inductive Label (ι α : Type*)
  | claim (i : ι) (a : α)
  | store (i : ι)
  | exchange
  | take
  deriving DecidableEq

variable {ι α : Type*} {cap : ℕ}

def State.start : State ι α cap := ⟨Vector.replicate cap none, 0, fun _ => none, none⟩

def State.taken (s : State ι α cap) : Option α :=
  s.drain.bind fun d => s.slots.toList[d.2]?.join

def loop (n i : ℕ) : Option (ℕ × ℕ) := if i < n then some (n, i) else none

/-- A store through a negative index, and an entry that was never stored, are the ends of the run. -/
def step [DecidableEq ι] (s : State ι α cap) : Label ι α → Option (State ι α cap)
  | .claim i a => match s.window i with
    | some _ => none
    | none => some { s with
        next := increment s.next
        window := Function.update s.window i (if s.next < cap then some (s.next, a) else none) }
  | .store i => match s.window i with
    | none => none
    | some (k, a) =>
        if h : 0 ≤ k ∧ k.toNat < cap then
          some { s with
            slots := s.slots.set k.toNat (some a) h.2
            window := Function.update s.window i none }
        else none
  | .exchange => match s.drain with
    | some _ => none
    | none => some { s with next := 0, drain := loop (min s.next cap).toNat 0 }
  | .take => match s.drain with
    | none => none
    | some (n, i) => if s.taken.isSome then some { s with drain := loop n (i + 1) } else none

/-- The buffer as its users see it: what is claimed, and what the consumer has before it. -/
structure Batch (α : Type*) where
  pending : List α
  taking : List α

def Batch.step (cap : ℕ) (b : Batch α) : Label ι α → Option (Batch α)
  | .claim _ a => some { b with pending := b.pending ++ [a] }
  | .store _ => some b
  | .exchange => match b.taking with
    | [] => some ⟨[], b.pending.take cap⟩
    | _ :: _ => none
  | .take => match b.taking with
    | [] => none
    | _ :: rest => some { b with taking := rest }

def Undisturbed (s : State ι α cap) : Label ι α → Prop
  | .claim _ _ => s.drain = none ∧ s.next < maxCount
  | .exchange => ∀ i, s.window i = none
  | _ => True

structure Holds (s : State ι α cap) (b : Batch α) : Prop where
  next : s.next = b.pending.length
  window : ∀ i k a, s.window i = some (k, a) →
    ∃ j : ℕ, k = j ∧ j < cap ∧ b.pending[j]? = some a
  distinct : ∀ i i' k a a', s.window i = some (k, a) → s.window i' = some (k, a') → i = i'
  stored : ∀ (j : ℕ) a, j < cap → b.pending[j]? = some a →
    s.slots.toList[j]? = some (some a) ∨ ∃ i, s.window i = some ((j : ℤ), a)
  idle : s.drain = none → b.taking = []
  drain : ∀ n i, s.drain = some (n, i) → i < n ∧ n ≤ cap ∧ i + b.taking.length = n ∧
    b.pending = [] ∧ ∀ (j : ℕ) a, b.taking[j]? = some a → s.slots.toList[i + j]? = some (some a)

variable {s t : State ι α cap} {b : Batch α} {i : ι} {a : α}

theorem holds_start : Holds (State.start : State ι α cap) ⟨[], []⟩ where
  next := rfl
  window _ _ _ h := by cases h
  distinct _ _ _ _ _ h := by cases h
  stored _ _ _ h := by cases h
  idle _ := rfl
  drain _ _ h := by cases h

/-- While the consumer takes entries nothing is claimed. -/
theorem window_eq_none (h : Holds s b) (hdrain : s.drain ≠ none) (i : ι) : s.window i = none := by
  obtain ⟨⟨n, k⟩, hd⟩ := Option.ne_none_iff_exists'.mp hdrain
  obtain ⟨-, -, -, hnil, -⟩ := h.drain n k hd
  by_contra hne
  obtain ⟨⟨k', a⟩, hw⟩ := Option.ne_none_iff_exists'.mp hne
  obtain ⟨j, -, -, hget⟩ := h.window i k' a hw
  rw [hnil] at hget
  cases hget

/-- The consumer's next entry is the next of the batch. -/
theorem taken_eq (h : Holds s b) : s.taken = b.taking.head? := by
  rw [State.taken]
  rcases hdrain : s.drain with _ | ⟨n, k⟩
  · rw [h.idle hdrain]
    rfl
  · obtain ⟨hlt, -, hlen, -, hslots⟩ := h.drain n k hdrain
    rcases htaking : b.taking with _ | ⟨a, rest⟩
    · rw [htaking, List.length_nil] at hlen
      omega
    · have hslot := hslots 0 a (by rw [htaking]; rfl)
      rw [Nat.add_zero] at hslot
      rw [Option.bind_some, hslot]
      rfl

theorem increment_eq {n : ℤ} (h : n < maxCount) : increment n = n + 1 := if_neg (Int.ne_of_lt h)

section Step

variable [DecidableEq ι]

theorem holds_claim (h : Holds s b) (hP : Undisturbed s (.claim i a))
    (hstep : step s (.claim i a) = some t) : Holds t { b with pending := b.pending ++ [a] } := by
  obtain ⟨hdrain, hmax⟩ := hP
  simp only [step] at hstep
  split at hstep
  · cases hstep
  rename_i hwindow
  cases hstep
  have hget (j : ℕ) (a' : α) (hj : b.pending[j]? = some a') :
      (b.pending ++ [a])[j]? = some a' := by
    rw [List.getElem?_append_left (List.getElem?_eq_some_iff.mp hj).1]
    exact hj
  -- what is claimed now has an index that no other window has
  have hold (i' : ι) (k : ℤ) (a' : α) (hw : s.window i' = some (k, a')) : k < s.next := by
    obtain ⟨j, rfl, -, hj⟩ := h.window i' k a' hw
    have := (List.getElem?_eq_some_iff.mp hj).1
    rw [h.next]
    omega
  have hwin (i' : ι) (k : ℤ) (a' : α)
      (hw : Function.update s.window i (if s.next < cap then some (s.next, a) else none) i' =
        some (k, a')) :
      (i' = i ∧ s.next < cap ∧ k = s.next ∧ a' = a) ∨ (i' ≠ i ∧ s.window i' = some (k, a')) := by
    by_cases hi : i' = i
    · subst hi
      rw [Function.update_self] at hw
      split_ifs at hw with hcap
      cases hw
      exact Or.inl ⟨rfl, hcap, rfl, rfl⟩
    · rw [Function.update_of_ne hi] at hw
      exact Or.inr ⟨hi, hw⟩
  refine ⟨?_, ?_, ?_, ?_, h.idle, ?_⟩
  · change increment s.next = _
    rw [increment_eq hmax, h.next, List.length_append, List.length_singleton]
    rfl
  · intro i' k a' hw
    rcases hwin i' k a' hw with ⟨-, hcap, rfl, rfl⟩ | ⟨-, hw⟩
    · refine ⟨b.pending.length, h.next, ?_, List.getElem?_concat_length⟩
      rw [h.next] at hcap
      omega
    · obtain ⟨j, hk, hj, hold⟩ := h.window i' k a' hw
      exact ⟨j, hk, hj, hget j a' hold⟩
  · intro i' i'' k a' a'' hw' hw''
    rcases hwin i' k a' hw' with ⟨hi', -, hk, -⟩ | ⟨-, hs'⟩
    · rcases hwin i'' k a'' hw'' with ⟨hi'', -⟩ | ⟨-, hs''⟩
      · rw [hi', hi'']
      · have := hold i'' k a'' hs''
        omega
    · rcases hwin i'' k a'' hw'' with ⟨-, -, hk, -⟩ | ⟨-, hs''⟩
      · have := hold i' k a' hs'
        omega
      · exact h.distinct i' i'' k a' a'' hs' hs''
  · intro j a' hj hpending
    by_cases hlast : j < b.pending.length
    · change (b.pending ++ [a])[j]? = some a' at hpending
      rw [List.getElem?_append_left hlast] at hpending
      rcases h.stored j a' hj hpending with hslot | ⟨i', hw⟩
      · exact Or.inl hslot
      · refine Or.inr ⟨i', ?_⟩
        have hi : i' ≠ i := by
          rintro rfl
          rw [hwindow] at hw
          cases hw
        exact (Function.update_of_ne hi _ _).trans hw
    · have hlen := (List.getElem?_eq_some_iff.mp hpending).1
      rw [List.length_append, List.length_singleton] at hlen
      obtain rfl : j = b.pending.length := by omega
      change (b.pending ++ [a])[b.pending.length]? = some a' at hpending
      rw [List.getElem?_concat_length] at hpending
      cases hpending
      refine Or.inr ⟨i, (Function.update_self _ _ _).trans ?_⟩
      rw [if_pos (by rw [h.next]; omega), h.next]
  · intro n k hd
    rw [hdrain] at hd
    cases hd

theorem holds_store (h : Holds s b) (hstep : step s (.store i) = some t) : Holds t b := by
  simp only [step] at hstep
  split at hstep
  · cases hstep
  rename_i k a hwindow
  split_ifs at hstep with hk
  cases hstep
  have hwin (i' : ι) (k' : ℤ) (a' : α) (hw : Function.update s.window i none i' = some (k', a')) :
      i' ≠ i ∧ s.window i' = some (k', a') := by
    by_cases hi : i' = i
    · subst hi
      rw [Function.update_self] at hw
      cases hw
    · rw [Function.update_of_ne hi] at hw
      exact ⟨hi, hw⟩
  obtain ⟨j, rfl, hj, hpending⟩ := h.window i k a hwindow
  refine ⟨h.next, fun i' k' a' hw => h.window i' k' a' (hwin i' k' a' hw).2, ?_, ?_, h.idle, ?_⟩
  · intro i' i'' k' a' a'' hw' hw''
    exact h.distinct i' i'' k' a' a'' (hwin i' k' a' hw').2 (hwin i'' k' a'' hw'').2
  · intro j' a' hj' hpending'
    by_cases hjj : j' = j
    · subst hjj
      rw [hpending] at hpending'
      cases hpending'
      refine Or.inl ?_
      rw [Vector.toList_set, Int.toNat_natCast,
        List.getElem?_set_self (by rw [Vector.length_toList]; exact hj)]
    · rcases h.stored j' a' hj' hpending' with hslot | ⟨i', hw⟩
      · refine Or.inl ?_
        rw [Vector.toList_set, Int.toNat_natCast, List.getElem?_set_ne (Ne.symm hjj)]
        exact hslot
      · refine Or.inr ⟨i', ?_⟩
        have hi : i' ≠ i := by
          rintro rfl
          rw [hwindow] at hw
          obtain ⟨hcast, -⟩ := Prod.mk.inj (Option.some.inj hw)
          exact hjj (by omega)
        exact (Function.update_of_ne hi _ _).trans hw
  · intro n k' hd
    have hnone := window_eq_none h (by rw [hd]; rintro ⟨⟩) i
    rw [hwindow] at hnone
    cases hnone

/-- The consumer begins with the entries that were claimed, as far as there are slots. -/
theorem holds_exchange (h : Holds s b) (hP : Undisturbed s (.exchange : Label ι α))
    (hstep : step s .exchange = some t) : b.taking = [] ∧ Holds t ⟨[], b.pending.take cap⟩ := by
  simp only [step] at hstep
  split at hstep
  · cases hstep
  rename_i hdrain
  cases hstep
  have hlen : (min s.next cap).toNat = (b.pending.take cap).length := by
    rw [h.next, List.length_take]
    omega
  have hnil : ∀ i, s.window i = none := hP
  refine ⟨h.idle hdrain, rfl, ?_, ?_, fun j a' _ hget => absurd hget (by simp), ?_, ?_⟩
  · intro i' k a' hw
    rw [hnil i'] at hw
    cases hw
  · intro i' i'' k a' a'' hw
    rw [hnil i'] at hw
    cases hw
  · intro hloop
    change loop (min s.next cap).toNat 0 = none at hloop
    rw [loop] at hloop
    split_ifs at hloop with hpos
    rw [hlen] at hpos
    exact List.length_eq_zero_iff.mp (Nat.eq_zero_of_not_pos hpos)
  · intro n k hloop
    change loop (min s.next cap).toNat 0 = some (n, k) at hloop
    rw [loop] at hloop
    split_ifs at hloop with hpos
    cases hloop
    refine ⟨hpos, ?_, by rw [hlen, Nat.zero_add], rfl, ?_⟩
    · rw [hlen, List.length_take]
      exact Nat.min_le_left _ _
    · intro j a' hget
      rw [Nat.zero_add]
      change (b.pending.take cap)[j]? = some a' at hget
      rw [List.getElem?_take] at hget
      split_ifs at hget with hj
      rcases h.stored j a' hj hget with hslot | ⟨i', hw⟩
      · exact hslot
      · rw [hnil i'] at hw
        cases hw

/-- The consumer takes the next entry of the batch. -/
theorem holds_take (h : Holds s b) (hstep : step s .take = some t) :
    ∃ a rest, b.taking = a :: rest ∧ s.taken = some a ∧ Holds t { b with taking := rest } := by
  have htaken := taken_eq h
  simp only [step] at hstep
  split at hstep
  · cases hstep
  rename_i n k hdrain
  split_ifs at hstep
  cases hstep
  obtain ⟨hlt, hcap, hlen, hnil, hslots⟩ := h.drain n k hdrain
  rcases htaking : b.taking with _ | ⟨a, rest⟩
  · rw [htaking, List.length_nil] at hlen
    omega
  rw [htaking] at htaken hlen hslots
  rw [List.length_cons] at hlen
  refine ⟨a, rest, rfl, htaken, h.next, h.window, h.distinct, h.stored, ?_, ?_⟩
  · intro hloop
    change loop n (k + 1) = none at hloop
    rw [loop] at hloop
    split_ifs at hloop with hmore
    have hrest : rest.length = 0 := by omega
    exact List.length_eq_zero_iff.mp hrest
  · intro n' k' hloop
    change loop n (k + 1) = some (n', k') at hloop
    rw [loop] at hloop
    split_ifs at hloop with hmore
    cases hloop
    have hcount : k + 1 + rest.length = n := by omega
    refine ⟨hmore, hcap, hcount, hnil, fun j a' hget => ?_⟩
    have hslot := hslots (j + 1) a' (by rw [List.getElem?_cons_succ]; exact hget)
    rw [show k + 1 + j = k + (j + 1) by omega]
    exact hslot

/-- The consumer can go on as long as the batch has entries. -/
theorem take_enabled_iff (h : Holds s b) : (∃ t, step s .take = some t) ↔ b.taking ≠ [] := by
  have htaken := taken_eq h
  simp only [step]
  rcases hdrain : s.drain with _ | ⟨n, k⟩
  · exact iff_of_false (fun ⟨t, ht⟩ => by cases ht) (not_not.mpr (h.idle hdrain))
  · simp only [htaken]
    rcases b.taking with _ | ⟨a, rest⟩
    · exact iff_of_false (fun ⟨t, ht⟩ => by cases ht) (not_not.mpr rfl)
    · exact iff_of_true ⟨_, rfl⟩ (List.cons_ne_nil _ _)

end Step

end ClaimBuffer
