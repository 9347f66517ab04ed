import Mathlib.Data.List.Infix

/-!
# Runs of a step function and interleaved programs

A system is a partial step function whose label resolves every choice, so a run is a list of
labels. `interleave` runs a sequential program among the steps of an environment: the program's
next operation may wait, the environment's steps come whenever they are enabled.
-/

namespace Runs

variable {σ ε ω χ : Type*}

def run (step : σ → ε → Option σ) : σ → List ε → Option σ
  | s, [] => some s
  | s, e :: l => match step s e with
    | none => none
    | some t => run step t l

/-- What `f` counts at the steps of the run from `s` along `l`. -/
def tally (step : σ → ε → Option σ) (f : σ → ε → ℕ) : σ → List ε → ℕ
  | _, [] => 0
  | s, e :: l => f s e + match step s e with
    | none => 0
    | some t => tally step f t l

/-- Every step of the run from `s` along `l` is taken under `P`. -/
def Always (step : σ → ε → Option σ) (P : σ → ε → Prop) : σ → List ε → Prop
  | _, [] => True
  | s, e :: l => P s e ∧ match step s e with
    | none => True
    | some t => Always step P t l

instance decidableAlways (step : σ → ε → Option σ) (P : σ → ε → Prop)
    [∀ s e, Decidable (P s e)] : ∀ s l, Decidable (Always step P s l)
  | _, [] => isTrue trivial
  | s, e :: l => match h : step s e with
    | none => decidable_of_iff (P s e) (by simp only [Always, h, and_true])
    | some t =>
        have := decidableAlways step P t l
        decidable_of_iff (P s e ∧ Always step P t l) (by simp only [Always, h])

variable {step : σ → ε → Option σ} {P : σ → ε → Prop} {I : σ → Prop} {s t : σ} {e : ε}
  {l l' : List ε}

theorem run_cons (h : run step s (e :: l) = some t) :
    ∃ u, step s e = some u ∧ run step u l = some t := by
  simp only [run] at h
  split at h
  · cases h
  · exact ⟨_, ‹_›, h⟩

theorem run_append (h : run step s l = some t) : run step s (l ++ l') = run step t l' := by
  induction l generalizing s with
  | nil =>
      cases h
      rfl
  | cons e l ih =>
      obtain ⟨u, hu, hrun⟩ := run_cons h
      simp only [List.cons_append, run, hu]
      exact ih hrun

theorem run_append_cases (h : run step s (l ++ l') = some t) :
    ∃ u, run step s l = some u ∧ run step u l' = some t := by
  induction l generalizing s with
  | nil => exact ⟨s, rfl, h⟩
  | cons e l ih =>
      obtain ⟨u, hu, hrun⟩ := run_cons h
      obtain ⟨u', hu', hrest⟩ := ih hrun
      refine ⟨u', ?_, hrest⟩
      simp only [run, hu]
      exact hu'

theorem run_concat (h : run step s (l ++ [e]) = some t) :
    ∃ u, run step s l = some u ∧ step u e = some t := by
  obtain ⟨u, hu, hrun⟩ := run_append_cases h
  obtain ⟨u', hu', hend⟩ := run_cons hrun
  cases hend
  exact ⟨u, hu, hu'⟩

/-- What every step keeps, a whole run keeps. -/
theorem run_invariant (hstep : ∀ s e t, step s e = some t → I s → I t)
    (h : run step s l = some t) (hs : I s) : I t := by
  induction l generalizing s with
  | nil =>
      cases h
      exact hs
  | cons e l ih =>
      obtain ⟨u, hu, hrun⟩ := run_cons h
      exact ih hrun (hstep s e u hu hs)

/-- What steps keep under a property that no step brings about, a run keeps that ends with it. -/
theorem run_invariant_of_end {Q : σ → Prop} (hback : ∀ s e t, step s e = some t → Q t → Q s)
    (hstep : ∀ s e t, step s e = some t → Q s → I s → I t) (h : run step s l = some t) (hQ : Q t)
    (hs : I s) : I t := by
  have hinv : Q t → I t := by
    refine run_invariant (I := fun s => Q s → I s) (fun s e t hst hI ht => ?_) h fun _ => hs
    have hq := hback s e t hst ht
    exact hstep s e t hst hq (hI hq)
  exact hinv hQ

/-- What every step taken under `P` keeps, a run whose steps are all taken under `P` keeps. -/
theorem run_invariant_of_always (hstep : ∀ s e t, P s e → step s e = some t → I s → I t)
    (h : run step s l = some t) (hP : Always step P s l) (hs : I s) : I t := by
  induction l generalizing s with
  | nil =>
      cases h
      exact hs
  | cons e l ih =>
      obtain ⟨u, hu, hrun⟩ := run_cons h
      simp only [Always, hu] at hP
      exact ih hrun hP.2 (hstep s e u hP.1 hu hs)

/-- Steps that are enabled under `P`, and keep an invariant there, make a whole run. -/
theorem run_of_always (hstep : ∀ s e, I s → P s e → ∃ t, step s e = some t ∧ I t) (hs : I s)
    (hP : Always step P s l) : ∃ t, run step s l = some t ∧ I t := by
  induction l generalizing s with
  | nil => exact ⟨s, rfl, hs⟩
  | cons e l ih =>
      obtain ⟨u, hu, hI⟩ := hstep s e hs hP.1
      simp only [Always, hu] at hP
      obtain ⟨t, ht, hI'⟩ := ih hI hP.2
      refine ⟨t, ?_, hI'⟩
      simp only [run, hu]
      exact ht

theorem always_of_forall (h : ∀ e ∈ l, ∀ s, P s e) (s : σ) : Always step P s l := by
  induction l generalizing s with
  | nil => trivial
  | cons e l ih =>
      refine ⟨h e List.mem_cons_self s, ?_⟩
      split
      · trivial
      · exact ih (fun e he => h e (List.mem_cons_of_mem _ he)) _

theorem always_append (h : run step s l = some t) :
    Always step P s (l ++ l') ↔ Always step P s l ∧ Always step P t l' := by
  induction l generalizing s with
  | nil =>
      cases h
      exact (and_iff_right trivial).symm
  | cons e l ih =>
      obtain ⟨u, hu, hrun⟩ := run_cons h
      simp only [List.cons_append, Always, hu, ih hrun, and_assoc]

theorem foldlM_eq_run : l.foldlM step s = run step s l := by
  induction l generalizing s with
  | nil => rfl
  | cons e l ih =>
      rw [List.foldlM_cons, run]
      cases step s e with
      | none => rfl
      | some t => exact ih

/-- When every step taken under `P` is a step of what `f` sees of the state, so is every run. -/
theorem run_map {σ' : Type*} {step' : σ' → ε → Option σ'} (f : σ → σ')
    (hstep : ∀ s e t, P s e → step s e = some t → I s → I t ∧ step' (f s) e = some (f t))
    (h : run step s l = some t) (hP : Always step P s l) (hs : I s) :
    run step' (f s) l = some (f t) := by
  induction l generalizing s with
  | nil =>
      cases h
      rfl
  | cons e l ih =>
      obtain ⟨u, hu, hrun⟩ := run_cons h
      simp only [Always, hu] at hP
      obtain ⟨hI, hstep'⟩ := hstep s e u hP.1 hu hs
      simp only [run, hstep']
      exact ih hrun hP.2 hI

/-- When every step does nothing to what `f` sees of the state, or does a step there, a run does a
run there. `Q` says which labels stand for which. -/
theorem run_simulates {σ' ε' : Type*} {step' : σ' → ε' → Option σ'} (f : σ → σ') (Q : ε → ε' → Prop)
    (hinv : ∀ s e t, step s e = some t → I s → I t)
    (hstep : ∀ s e t, step s e = some t → I s →
      f t = f s ∨ ∃ a, Q e a ∧ step' (f s) a = some (f t))
    (h : run step s l = some t) (hs : I s) :
    ∃ l', run step' (f s) l' = some (f t) ∧ ∀ a ∈ l', ∃ e ∈ l, Q e a := by
  induction l generalizing s with
  | nil =>
      cases h
      exact ⟨[], rfl, fun a ha => absurd ha List.not_mem_nil⟩
  | cons e l ih =>
      obtain ⟨u, hu, hrun⟩ := run_cons h
      obtain ⟨l', hrun', hlabels⟩ := ih hrun (hinv s e u hu hs)
      have htail : ∀ a ∈ l', ∃ e' ∈ e :: l, Q e' a := by
        intro a ha
        obtain ⟨e', he', hQ⟩ := hlabels a ha
        exact ⟨e', List.mem_cons_of_mem e he', hQ⟩
      rcases hstep s e u hu hs with hsame | ⟨a, hQ, ha⟩
      · rw [hsame] at hrun'
        exact ⟨l', hrun', htail⟩
      · refine ⟨a :: l', ?_, ?_⟩
        · simp only [run, ha]
          exact hrun'
        · intro b hb
          rcases List.mem_cons.mp hb with rfl | hb
          · exact ⟨e, List.mem_cons_self, hQ⟩
          · exact htail b hb

/-- A label of an interleaving: the program's next operation, with how its choices fall, or a step
of the environment. -/
inductive Label (ω χ ε : Type*)
  | op (o : ω) (choice : χ)
  | env (event : ε)

def interleave [DecidableEq ω] (exec : σ → ω → χ → Option σ) (env : σ → ε → Option σ) :
    σ × List ω → Label ω χ ε → Option (σ × List ω)
  | (_, []), .op _ _ => none
  | (s, o :: prog), .op o' x => if o = o' then (exec s o x).map fun t => (t, prog) else none
  | (s, prog), .env e => (env s e).map fun t => (t, prog)

variable [DecidableEq ω] {exec : σ → ω → χ → Option σ} {env : σ → ε → Option σ}

/-- A step of an interleaving runs the program's next operation or leaves the program as it is. -/
theorem interleave_cases {a : Label ω χ ε} {prog prog' : List ω}
    (h : interleave exec env (s, prog) a = some (t, prog')) :
    (∃ o x, a = .op o x ∧ prog = o :: prog' ∧ exec s o x = some t) ∨
      ∃ e, a = .env e ∧ prog' = prog ∧ env s e = some t := by
  rcases a with ⟨o', x⟩ | e
  · rcases prog with _ | ⟨o, prog⟩
    · cases h
    · simp only [interleave] at h
      split_ifs at h with ho
      obtain ⟨u, hu, heq⟩ := Option.map_eq_some_iff.mp h
      cases heq
      exact Or.inl ⟨o, x, by rw [ho], rfl, hu⟩
  · simp only [interleave] at h
    obtain ⟨u, hu, heq⟩ := Option.map_eq_some_iff.mp h
    cases heq
    exact Or.inr ⟨e, rfl, rfl, hu⟩

/-- A run of the environment leaves the program where it is. -/
theorem interleave_run_env (prog : List ω) (h : run env s l = some t) :
    run (interleave exec env) (s, prog) (l.map .env) = some (t, prog) := by
  induction l generalizing s with
  | nil =>
      cases h
      rfl
  | cons e l ih =>
      obtain ⟨u, hu, hrun⟩ := run_cons h
      cases prog with
      | nil =>
          simp only [List.map_cons, run, interleave, hu, Option.map_some]
          exact ih hrun
      | cons o prog =>
          simp only [List.map_cons, run, interleave, hu, Option.map_some]
          exact ih hrun

/-- A run that completes one program after another completes the first of them on the way. -/
theorem interleave_append {prog prog' : List ω} {l : List (Label ω χ ε)}
    (h : run (interleave exec env) (s, prog ++ prog') l = some (t, [])) :
    ∃ u l₁ l₂, l = l₁ ++ l₂ ∧ run (interleave exec env) (s, prog) l₁ = some (u, []) ∧
      run (interleave exec env) (u, prog') l₂ = some (t, []) := by
  induction l generalizing s prog with
  | nil =>
      obtain ⟨rfl, hnil⟩ := Prod.mk.inj (Option.some.inj h)
      obtain ⟨rfl, rfl⟩ := List.append_eq_nil_iff.mp hnil
      exact ⟨s, [], [], rfl, rfl, rfl⟩
  | cons a l ih =>
      rcases prog with _ | ⟨o, prog⟩
      · exact ⟨s, [], a :: l, rfl, rfl, h⟩
      · obtain ⟨⟨v, rest⟩, hstep, hrun⟩ := run_cons h
        rcases interleave_cases hstep with ⟨o', x, rfl, heq, hop⟩ | ⟨e, rfl, rfl, henv⟩
        · obtain ⟨rfl, rfl⟩ := List.cons.inj heq
          obtain ⟨u, l₁, l₂, rfl, hfirst, hsecond⟩ := ih hrun
          refine ⟨u, .op o x :: l₁, l₂, rfl, ?_, hsecond⟩
          simp only [run, interleave, if_true, hop, Option.map_some]
          exact hfirst
        · have hrun' : run (interleave exec env) (v, (o :: prog) ++ prog') l = some (t, []) := hrun
          obtain ⟨u, l₁, l₂, rfl, hfirst, hsecond⟩ := ih hrun'
          refine ⟨u, .env e :: l₁, l₂, rfl, ?_, hsecond⟩
          simp only [run, interleave, henv, Option.map_some]
          exact hfirst

end Runs
