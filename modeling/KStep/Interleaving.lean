import Mathlib.Algebra.BigOperators.Fin
import Mathlib.Data.List.Count

/-!
# Interleavings of threads that only count

Each event belongs to one thread, moves that thread's own state on and may produce an item that
depends on nothing else. How often an item is produced in an interleaving is then the sum of how
often each thread produces it by itself.
-/

namespace Interleaving

/-- What an event does to the state of its thread, and the item it produces there. -/
structure Threads (ι ε σ κ : Type*) where
  owner : ε → ι
  next : σ → ε → σ
  item : σ → ε → Option κ

variable {ι ε σ κ : Type*} [DecidableEq ι]

def events (T : Threads ι ε σ κ) (i : ι) (l : List ε) : List ε :=
  l.filter fun e => decide (T.owner e = i)

def Interleaves (T : Threads ι ε σ κ) (l : List ε) (f : ι → List ε) : Prop :=
  ∀ i, events T i l = f i

def items (T : Threads ι ε σ κ) : σ → List ε → List κ
  | _, [] => []
  | a, e :: l => (T.item a e).toList ++ items T (T.next a e) l

/-- The items produced from the states `s` on, whichever threads the events belong to. -/
def allItems (T : Threads ι ε σ κ) : (ι → σ) → List ε → List κ
  | _, [] => []
  | s, e :: l => (T.item (s (T.owner e)) e).toList ++
      allItems T (Function.update s (T.owner e) (T.next (s (T.owner e)) e)) l

variable {T : Threads ι ε σ κ} {s : ι → σ} {l l' : List ε} {f : ι → List ε}

theorem events_cons_self (e : ε) (l : List ε) :
    events T (T.owner e) (e :: l) = e :: events T (T.owner e) l :=
  List.filter_cons_of_pos (decide_eq_true rfl)

theorem events_cons_of_ne {e : ε} {i : ι} (h : T.owner e ≠ i) (l : List ε) :
    events T i (e :: l) = events T i l :=
  List.filter_cons_of_neg (by rw [decide_eq_true_eq]; exact h)

variable [Fintype ι] [BEq κ]

/-- Every item is produced as often as the threads produce it one by one. -/
theorem count_allItems (T : Threads ι ε σ κ) (s : ι → σ) (l : List ε) (k : κ) :
    (allItems T s l).count k = ∑ i, (items T (s i) (events T i l)).count k := by
  induction l generalizing s with
  | nil => simp [allItems, events, items]
  | cons e l ih =>
      -- only the owner's sequence gets longer, and its state is the one that moves
      have hother (i : ι) : (items T (s i) (events T i (e :: l))).count k =
          (if i = T.owner e then ((T.item (s (T.owner e)) e).toList).count k else 0) +
            (items T (Function.update s (T.owner e) (T.next (s (T.owner e)) e) i)
              (events T i l)).count k := by
        by_cases hi : i = T.owner e
        · subst hi
          rw [events_cons_self, items, List.count_append, if_pos rfl, Function.update_self]
        · rw [events_cons_of_ne (Ne.symm hi), if_neg hi, Function.update_of_ne hi, Nat.zero_add]
      rw [allItems, List.count_append, ih, Finset.sum_congr rfl fun i _ => hother i,
        Finset.sum_add_distrib, Finset.sum_ite_eq' Finset.univ, if_pos (Finset.mem_univ _)]

/-- So an interleaving produces what its sequences do. -/
theorem Interleaves.count_allItems (h : Interleaves T l f) (s : ι → σ) (k : κ) :
    (allItems T s l).count k = ∑ i, (items T (s i) (f i)).count k := by
  rw [Interleaving.count_allItems]
  exact Finset.sum_congr rfl fun i _ => by rw [h i]

end Interleaving
