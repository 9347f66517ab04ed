import Mathlib.Data.List.Basic

/-!
# Loops that stop at their first error

`stopFold f l s` runs `f` over `l` from `s` and stops at the first element for which `f` reports
an error. Unlike a fold in an error monad it keeps the state reached at the error, which is what a
loop over mutable storage leaves behind when it returns early.
-/

namespace EarlyExit

variable {σ τ α ε : Type*}

def stopFold (f : σ → α → Option ε × σ) : List α → σ → Option ε × σ
  | [], s => (none, s)
  | a :: l, s => match f s a with
    | (some e, t) => (some e, t)
    | (none, t) => stopFold f l t

@[simp] theorem stopFold_nil (f : σ → α → Option ε × σ) (s : σ) :
    stopFold f [] s = (none, s) := rfl

theorem stopFold_cons_error {f : σ → α → Option ε × σ} {s t : σ} {a : α} {e : ε}
    (h : f s a = (some e, t)) (l : List α) : stopFold f (a :: l) s = (some e, t) := by
  simp only [stopFold, h]

theorem stopFold_cons_ok {f : σ → α → Option ε × σ} {s t : σ} {a : α}
    (h : f s a = (none, t)) (l : List α) : stopFold f (a :: l) s = stopFold f l t := by
  simp only [stopFold, h]

theorem stopFold_append_error {f : σ → α → Option ε × σ} {l : List α} {s t : σ} {e : ε}
    (h : stopFold f l s = (some e, t)) (l' : List α) : stopFold f (l ++ l') s = (some e, t) := by
  induction l generalizing s with
  | nil => cases h
  | cons a l ih =>
      rcases hf : f s a with ⟨_ | e', u⟩
      · rw [stopFold_cons_ok hf] at h
        rw [List.cons_append, stopFold_cons_ok hf]
        exact ih h
      · rw [stopFold_cons_error hf] at h
        rw [List.cons_append, stopFold_cons_error hf, h]

theorem stopFold_append_ok {f : σ → α → Option ε × σ} {l : List α} {s t : σ}
    (h : stopFold f l s = (none, t)) (l' : List α) :
    stopFold f (l ++ l') s = stopFold f l' t := by
  induction l generalizing s with
  | nil =>
      cases h
      rfl
  | cons a l ih =>
      rcases hf : f s a with ⟨_ | e', u⟩
      · rw [stopFold_cons_ok hf] at h
        rw [List.cons_append, stopFold_cons_ok hf]
        exact ih h
      · rw [stopFold_cons_error hf] at h
        cases h

/-- The loop's error is the error of one of its steps. -/
theorem stopFold_error {f : σ → α → Option ε × σ} {Q : ε → Prop} {l : List α} {s : σ} {e : ε}
    (hstep : ∀ s a e, (f s a).1 = some e → Q e) (h : (stopFold f l s).1 = some e) : Q e := by
  induction l generalizing s with
  | nil => cases h
  | cons a l ih =>
      rcases hf : f s a with ⟨_ | e', t⟩
      · rw [stopFold_cons_ok hf] at h
        exact ih h
      · rw [stopFold_cons_error hf] at h
        cases h
        exact hstep s a e (by rw [hf])

/-- What every step keeps, error or not, holds wherever the loop stops. -/
theorem stopFold_invariant {f : σ → α → Option ε × σ} {P : σ → Prop} {l : List α} {s : σ}
    (hstep : ∀ a ∈ l, ∀ s, P s → P (f s a).2) (hs : P s) : P (stopFold f l s).2 := by
  induction l generalizing s with
  | nil => exact hs
  | cons a l ih =>
      have ha : P (f s a).2 := hstep a List.mem_cons_self s hs
      have hl : ∀ b ∈ l, ∀ s, P s → P (f s b).2 := fun b hb => hstep b (List.mem_cons_of_mem a hb)
      rcases hf : f s a with ⟨_ | e, t⟩
      · rw [stopFold_cons_ok hf]
        exact ih hl (by simpa only [hf] using ha)
      · rw [stopFold_cons_error hf]
        simpa only [hf] using ha

/-- Two loops over the same list whose steps report the same errors and keep a relation between
their states report the same error, and end related when there was none. The relation may depend
on what is left of the list. -/
theorem stopFold_rel {f : σ → α → Option ε × σ} {g : τ → α → Option ε × τ}
    (R : List α → σ → τ → Prop)
    (hstep : ∀ a l s t, R (a :: l) s t →
      (f s a).1 = (g t a).1 ∧ ((f s a).1 = none → R l (f s a).2 (g t a).2))
    {l : List α} {s : σ} {t : τ} (h : R l s t) :
    (stopFold f l s).1 = (stopFold g l t).1 ∧
      ((stopFold f l s).1 = none → R [] (stopFold f l s).2 (stopFold g l t).2) := by
  induction l generalizing s t with
  | nil => exact ⟨rfl, fun _ => h⟩
  | cons a l ih =>
      obtain ⟨herr, hok⟩ := hstep a l s t h
      rcases hf : f s a with ⟨_ | e, s'⟩ <;> rcases hg : g t a with ⟨_ | e', t'⟩ <;>
        simp only [hf, hg, reduceCtorEq, Option.some.injEq] at herr
      · rw [stopFold_cons_ok hf, stopFold_cons_ok hg]
        exact ih (by simpa only [hf, hg] using hok (by rw [hf]))
      · rw [stopFold_cons_error hf, stopFold_cons_error hg, herr]
        exact ⟨rfl, by simp⟩

end EarlyExit
