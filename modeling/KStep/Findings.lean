import KStep.Runs
import Mathlib.Logic.Function.Basic
import Mathlib.Data.List.Nodup

/-!
# The fuzzer's findings

Each client keeps its findings in a directory of its own, which outlives the process, and numbers
them with a counter that every new executor starts at zero. `save_finding` writes to the name of
the next number, whether or not a file is there.
-/

namespace KStep.Findings

open Runs

inductive Ext
  | cli | jsonl | log
  deriving DecidableEq, Repr

/-- What `save_finding` is given, and the kernel log it copies. -/
structure Finding where
  lines : List (List Char)
  transcript : List Char
  why : List Char
  kernelLog : List Char

def Finding.file (f : Finding) : Ext → List Char
  | .cli => "# ".toList ++ f.why ++ '\n' :: ['\n'].intercalate f.lines ++ ['\n']
  | .jsonl => f.transcript
  | .log => f.kernelLog

def fileName (n : ℕ) : List Char :=
  List.replicate (4 - (Nat.toDigits 10 n).length) '0' ++ Nat.toDigits 10 n

/-- The path of a finding without its extension: the client's directory and the name in it. -/
structure Base where
  client : ℕ
  name : List Char
  deriving DecidableEq, Repr

/-- The findings directory of a bug with the counters of the executors at work, and the bases that
`save_finding` has written to, in order. -/
structure Work where
  nfindings : ℕ → Option ℕ
  files : Base → Ext → Option (List Char)
  saved : List Base

def Work.empty : Work := ⟨fun _ => none, fun _ _ => none, []⟩

inductive Event
  /-- `run_client` constructs the executor of a client -/
  | start (client : ℕ)
  /-- the client's executor saves a finding; `done` are the files that could be written -/
  | save (client : ℕ) (finding : Finding) (done : Ext → Bool)

def saveFinding (w : Work) (client nfindings : ℕ) (finding : Finding) (done : Ext → Bool) : Work :=
  let nfindings := nfindings + 1
  let base : Base := ⟨client, fileName nfindings⟩
  { nfindings := Function.update w.nfindings client (some nfindings)
    files := fun b ext => if b = base ∧ done ext then some (finding.file ext) else w.files b ext
    saved := w.saved ++ [base] }

def step (w : Work) : Event → Option Work
  | .start client => some { w with nfindings := Function.update w.nfindings client (some 0) }
  | .save client finding done => match w.nfindings client with
    | none => none
    | some n => some (saveFinding w client n finding done)

def saves (client : ℕ) (l : List Event) : ℕ :=
  l.countP fun e => match e with
    | .save c _ _ => c = client
    | .start _ => false

variable {w t : Work} {e : Event} {l : List Event} {client : ℕ}

theorem fileName_injective : Function.Injective fileName := by
  intro n m h
  have hvalue (n : ℕ) : Nat.ofDigitChars 10 (fileName n) 0 = n := by
    rw [fileName, Nat.ofDigitChars_append, Nat.ofDigitChars_replicate_zero, Nat.mul_zero,
      Nat.ofDigitChars_ten_toDigits]
  rw [← hvalue n, h, hvalue m]

theorem saves_start (client c : ℕ) (l : List Event) :
    saves client (.start c :: l) = saves client l := by
  simp [saves]

theorem saves_save_self (client : ℕ) (finding : Finding) (done : Ext → Bool) (l : List Event) :
    saves client (.save client finding done :: l) = saves client l + 1 := by
  simp [saves]

theorem saves_save_ne {c : ℕ} (h : c ≠ client) (finding : Finding) (done : Ext → Bool)
    (l : List Event) : saves client (.save c finding done :: l) = saves client l := by
  simp [saves, h]

theorem saveFinding_nfindings (w : Work) (c n : ℕ) (finding : Finding) (done : Ext → Bool) :
    (saveFinding w c n finding done).nfindings =
      Function.update w.nfindings c (some (n + 1)) := rfl

theorem saveFinding_saved (w : Work) (c n : ℕ) (finding : Finding) (done : Ext → Bool) :
    (saveFinding w c n finding done).saved = w.saved ++ [⟨c, fileName (n + 1)⟩] := rfl

theorem step_cases (h : step w e = some t) :
    (∃ c, e = .start c ∧ t = { w with nfindings := Function.update w.nfindings c (some 0) }) ∨
      ∃ c finding done n, e = .save c finding done ∧ w.nfindings c = some n ∧
        t = saveFinding w c n finding done := by
  unfold step at h
  split at h
  · cases h
    exact Or.inl ⟨_, rfl, rfl⟩
  · split at h
    · cases h
    · cases h
      exact Or.inr ⟨_, _, _, _, rfl, ‹_›, rfl⟩

theorem saved_grows (h : run step w l = some t) : ∃ later, t.saved = w.saved ++ later := by
  refine run_invariant (I := fun t => ∃ later, t.saved = w.saved ++ later) ?_ h
    ⟨[], (List.append_nil _).symm⟩
  rintro u e u' hstep ⟨later, hlater⟩
  rcases step_cases hstep with ⟨c, -, rfl⟩ | ⟨c, finding, done, n, -, -, rfl⟩
  · exact ⟨later, hlater⟩
  · refine ⟨later ++ [⟨c, fileName (n + 1)⟩], ?_⟩
    rw [saveFinding_saved, hlater, List.append_assoc]

/-- A client whose executor is new or not there yet writes its next finding to the first name. -/
theorem first_name (h : run step w l = some t) (hw : ∀ n, w.nfindings client = some n → n = 0)
    (hl : saves client l ≠ 0) :
    ∃ later, t.saved = w.saved ++ later ∧ (⟨client, fileName 1⟩ : Base) ∈ later := by
  induction l generalizing w with
  | nil => exact absurd rfl hl
  | cons e l ih =>
      obtain ⟨u, hstep, hrun⟩ := run_cons h
      rcases step_cases hstep with ⟨c, rfl, rfl⟩ | ⟨c, finding, done, n, rfl, hn, rfl⟩
      · rw [saves_start] at hl
        have hnew (n : ℕ) (hn : Function.update w.nfindings c (some 0) client = some n) :
            n = 0 := by
          by_cases hc : client = c
          · rw [hc, Function.update_self] at hn
            exact (Option.some.inj hn).symm
          · rw [Function.update_of_ne hc] at hn
            exact hw n hn
        obtain ⟨later, hlater, hmem⟩ := ih hrun hnew hl
        exact ⟨later, hlater, hmem⟩
      · by_cases hc : c = client
        · subst hc
          obtain rfl := hw n hn
          obtain ⟨later, hlater⟩ := saved_grows hrun
          refine ⟨⟨c, fileName 1⟩ :: later, ?_, List.mem_cons_self⟩
          rw [hlater, saveFinding_saved, List.append_assoc]
          rfl
        · rw [saves_save_ne hc] at hl
          have hsame (n' : ℕ) (hn' : (saveFinding w c n finding done).nfindings client = some n') :
              n' = 0 := by
            rw [saveFinding_nfindings, Function.update_of_ne (Ne.symm hc)] at hn'
            exact hw n' hn'
          obtain ⟨later, hlater, hmem⟩ := ih hrun hsame hl
          refine ⟨⟨c, fileName (n + 1)⟩ :: later, ?_, List.mem_cons_of_mem _ hmem⟩
          rw [hlater, saveFinding_saved, List.append_assoc]
          rfl

def Counted (w : Work) (client : ℕ) : Prop :=
  ∀ b ∈ w.saved, b.client = client → ∃ n k, w.nfindings client = some n ∧ k ≤ n ∧
    b.name = fileName k

/-- What the events to come must be like for a client: it saves nothing more, or its executor knows
all its findings and a new executor comes before the first or after the last of them. -/
def Orderly (w : Work) (l : List Event) (client : ℕ) : Prop :=
  saves client l = 0 ∨ Counted w client ∧ ∀ l₁ l₂, l = l₁ ++ .start client :: l₂ →
    saves client l₂ = 0 ∨ (∀ b ∈ w.saved, b.client ≠ client) ∧ saves client l₁ = 0

theorem orderly_start {c : ℕ} (h : Orderly w (.start c :: l) client) :
    Orderly { w with nfindings := Function.update w.nfindings c (some 0) } l client := by
  rcases h with hnone | ⟨hcounted, hstarts⟩
  · exact Or.inl ((saves_start client c l).symm.trans hnone)
  by_cases hc : c = client
  · subst hc
    rcases hstarts [] l rfl with hnone | ⟨hfresh, -⟩
    · exact Or.inl hnone
    · refine Or.inr ⟨fun b hb hclient => absurd hclient (hfresh b hb), fun l₁ l₂ hl => ?_⟩
      rcases hstarts (.start c :: l₁) l₂ (by rw [hl]; rfl) with hnone | ⟨-, hsaves⟩
      · exact Or.inl hnone
      · exact Or.inr ⟨hfresh, (saves_start c c l₁).symm.trans hsaves⟩
  · refine Or.inr ⟨fun b hb hclient => ?_, fun l₁ l₂ hl => ?_⟩
    · simp only [Function.update_of_ne (Ne.symm hc)]
      exact hcounted b hb hclient
    · rcases hstarts (.start c :: l₁) l₂ (by rw [hl]; rfl) with hnone | ⟨hfresh, hsaves⟩
      · exact Or.inl hnone
      · exact Or.inr ⟨hfresh, (saves_start client c l₁).symm.trans hsaves⟩

theorem orderly_save {c n : ℕ} {finding : Finding} {done : Ext → Bool} (hn : w.nfindings c = some n)
    (h : Orderly w (.save c finding done :: l) client) :
    Orderly (saveFinding w c n finding done) l client := by
  by_cases hc : c = client
  · subst hc
    rcases h with hnone | ⟨hcounted, hstarts⟩
    · rw [saves_save_self] at hnone
      cases hnone
    · refine Or.inr ⟨fun b hb hclient => ?_, fun l₁ l₂ hl => Or.inl ?_⟩
      · rw [saveFinding_nfindings, Function.update_self]
        rcases List.mem_append.mp hb with hb | hb
        · obtain ⟨n', k, hn', hk, hname⟩ := hcounted b hb hclient
          cases hn.symm.trans hn'
          exact ⟨n + 1, k, rfl, hk.trans (Nat.le_succ n), hname⟩
        · rw [List.mem_singleton.mp hb]
          exact ⟨n + 1, n + 1, rfl, le_rfl, rfl⟩
      · rcases hstarts (.save c finding done :: l₁) l₂ (by rw [hl]; rfl) with hnone | ⟨-, hsaves⟩
        · exact hnone
        · rw [saves_save_self] at hsaves
          cases hsaves
  · rcases h with hnone | ⟨hcounted, hstarts⟩
    · exact Or.inl ((saves_save_ne hc finding done l).symm.trans hnone)
    · have hold {b : Base} (hb : b ∈ w.saved ++ [⟨c, fileName (n + 1)⟩])
          (hclient : b.client = client) : b ∈ w.saved := by
        rcases List.mem_append.mp hb with hb | hb
        · exact hb
        · rw [List.mem_singleton.mp hb] at hclient
          exact absurd hclient hc
      refine Or.inr ⟨fun b hb hclient => ?_, fun l₁ l₂ hl => ?_⟩
      · rw [saveFinding_nfindings, Function.update_of_ne (Ne.symm hc)]
        exact hcounted b (hold hb hclient) hclient
      · rcases hstarts (.save c finding done :: l₁) l₂ (by rw [hl]; rfl) with
          hnone | ⟨hfresh, hsaves⟩
        · exact Or.inl hnone
        · refine Or.inr ⟨fun b hb hclient => hfresh b (hold hb hclient) hclient, ?_⟩
          exact (saves_save_ne hc finding done l₁).symm.trans hsaves

theorem saved_nodup (h : run step w l = some t) (hw : w.saved.Nodup)
    (hl : ∀ client, Orderly w l client) : t.saved.Nodup := by
  induction l generalizing w with
  | nil =>
      cases h
      exact hw
  | cons e l ih =>
      obtain ⟨u, hstep, hrun⟩ := run_cons h
      rcases step_cases hstep with ⟨c, rfl, rfl⟩ | ⟨c, finding, done, n, rfl, hn, rfl⟩
      · exact ih hrun hw fun client => orderly_start (hl client)
      · refine ih hrun ?_ fun client => orderly_save hn (hl client)
        rw [saveFinding_saved, List.nodup_append]
        refine ⟨hw, List.nodup_singleton _, fun b hb b' hb' heq => ?_⟩
        rw [List.mem_singleton.mp hb'] at heq
        rcases hl c with hnone | ⟨hcounted, -⟩
        · rw [saves_save_self] at hnone
          cases hnone
        · obtain ⟨n', k, hn', hk, hname⟩ := hcounted b hb (by rw [heq])
          cases hn.symm.trans hn'
          rw [heq] at hname
          have hnumber := fileName_injective hname
          omega

/-- A finding whose base is written to only once keeps its files. -/
theorem files_kept (h : run step w l = some t) (ht : t.saved.Nodup) {b : Base} (hb : b ∈ w.saved)
    (ext : Ext) : t.files b ext = w.files b ext := by
  induction l generalizing w with
  | nil =>
      cases h
      rfl
  | cons e l ih =>
      obtain ⟨u, hstep, hrun⟩ := run_cons h
      rcases step_cases hstep with ⟨c, rfl, rfl⟩ | ⟨c, finding, done, n, rfl, hn, rfl⟩
      · have hkept := ih hrun hb
        exact hkept
      · rw [ih hrun (List.mem_append_left _ hb)]
        have hne : b ≠ ⟨c, fileName (n + 1)⟩ := by
          rintro rfl
          obtain ⟨later, hlater⟩ := saved_grows hrun
          rw [hlater, saveFinding_saved, List.append_assoc] at ht
          exact (List.nodup_append.mp ht).2.2 _ hb _ (by simp) rfl
        rw [saveFinding]
        exact if_neg fun hbase => hne hbase.1

/-- Over any history of new executors and saved findings: every finding keeps its files, and no
base name is written to twice, exactly when each new executor of a client comes before the client's
first finding or after its last. -/
theorem findings_kept_iff (l : List Event) (t : Work) (h : run step Work.empty l = some t) :
    (t.saved.Nodup ∧ ∀ l₁ l₂ w, l = l₁ ++ l₂ → run step Work.empty l₁ = some w →
      ∀ b ∈ w.saved, ∀ ext, t.files b ext = w.files b ext) ↔
    ∀ client l₁ l₂, l = l₁ ++ .start client :: l₂ → saves client l₁ = 0 ∨ saves client l₂ = 0 := by
  constructor
  · rintro ⟨hnodup, -⟩ client l₁ l₂ rfl
    by_contra hboth
    rw [not_or] at hboth
    obtain ⟨w, hrun₁, hrun₂⟩ := run_append_cases h
    obtain ⟨u, hstep, hrun₃⟩ := run_cons hrun₂
    rcases step_cases hstep with ⟨c, hc, rfl⟩ | ⟨_, _, _, _, hc, -⟩
    · cases hc
      obtain ⟨later₁, hsaved₁, hmem₁⟩ :=
        first_name hrun₁ (fun n hn => by cases hn) hboth.1
      have hnew (n : ℕ) (hn : Function.update w.nfindings client (some 0) client = some n) :
          n = 0 := by
        rw [Function.update_self] at hn
        exact (Option.some.inj hn).symm
      obtain ⟨later₂, hsaved₂, hmem₂⟩ := first_name hrun₃ hnew hboth.2
      rw [hsaved₂, List.nodup_append] at hnodup
      refine hnodup.2.2 _ ?_ _ hmem₂ rfl
      rw [hsaved₁]
      exact List.mem_append_right _ hmem₁
    · cases hc
  · intro hl
    have hnodup : t.saved.Nodup := by
      refine saved_nodup h List.nodup_nil fun client => Or.inr ⟨fun b hb => (by cases hb), ?_⟩
      intro l₁ l₂ hsplit
      rcases hl client l₁ l₂ hsplit with hfirst | hlast
      · exact Or.inr ⟨fun b hb => (by cases hb), hfirst⟩
      · exact Or.inl hlast
    refine ⟨hnodup, ?_⟩
    rintro l₁ l₂ w rfl hw b hb ext
    rw [run_append hw] at h
    exact files_kept h hnodup hb ext

def timeoutFinding (why : String) : Finding := ⟨["tick".toList], [], why.toList, []⟩

def restarted : List Event :=
  [.start 0, .save 0 (timeoutFinding "timeout: a") fun _ => true, .start 0,
    .save 0 (timeoutFinding "timeout: b") fun _ => true]

/-- Its first finding is gone. -/
theorem restarted_client_overwrites : ∃ w t, run step Work.empty (restarted.take 2) = some w ∧
    run step Work.empty restarted = some t ∧
    w.saved = [⟨0, "0001".toList⟩] ∧ ¬t.saved.Nodup ∧
    t.files ⟨0, "0001".toList⟩ .cli ≠ w.files ⟨0, "0001".toList⟩ .cli := by
  refine ⟨_, _, rfl, rfl, ?_, ?_, ?_⟩
  · decide
  · decide
  · decide

theorem findings_kept_iff_restarted : ∃ t, run step Work.empty restarted = some t ∧
    ¬(t.saved.Nodup ∧ ∀ l₁ l₂ w, restarted = l₁ ++ l₂ → run step Work.empty l₁ = some w →
      ∀ b ∈ w.saved, ∀ ext, t.files b ext = w.files b ext) := by
  refine ⟨_, rfl, fun hkept => ?_⟩
  have hstarts := (findings_kept_iff restarted _ rfl).mp hkept 0 (restarted.take 2)
    (restarted.drop 3) rfl
  exact absurd hstarts (by decide)

end KStep.Findings
