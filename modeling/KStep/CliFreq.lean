import KStep.CliTokens

/-!
# The blanks of `cpu-freq`

Lines of one verb and the same tokens do the same and get the same reply, whatever blanks are
between the tokens. The exception is `cpu-freq`, which looks for a space where the others take an
argument off: a tab or a second space between its two numbers is an error.
-/

namespace KStep.Cli

open CString Trim Squeeze KStep.Topology FlatJson

/-- The text between the first token and the last has one space between two tokens. -/
def LineOf.SingleSpaced {tokens : List (List Char)} (w : LineOf tokens) : Prop :=
  strim w.text = strim (singleSpaced tokens)

/-- A test CPU and a scale with one space between them. -/
def FreqText (k : ℕ) (text : List Char) : Prop :=
  ∃ cpu scale n m, text = cpu ++ ' ' :: scale ∧ kstrtoint cpu = some n ∧ 1 ≤ n ∧ n ≤ k ∧
    kstrtoint scale = some m ∧ 1 ≤ m ∧ m ≤ 1024

def FreqArgs (k : ℕ) (tokens : List (List Char)) : Prop := FreqText k (strim (singleSpaced tokens))

variable {E : Env} {v : CliView} {k : ℕ} {arg : Arg} {t : List Char} {verb : String}
  {tokens : List (List Char)}

theorem rangeArg_ok {lo hi n : ℤ} {usage : String} (h : kstrtoint t = some n) (hlo : lo ≤ n)
    (hhi : n ≤ hi) : rangeArg lo hi usage t = .ok n := by
  simp only [rangeArg, h, if_neg (show ¬ (n < lo ∨ hi < n) by omega)]
  rfl

theorem rangeArg_cases (lo hi : ℤ) (usage : String) (t : List Char) :
    (∃ n, rangeArg lo hi usage t = .ok n ∧ kstrtoint t = some n ∧ lo ≤ n ∧ n ≤ hi) ∨
      rangeArg lo hi usage t = .error usage := by
  rw [rangeArg]
  rcases kstrtoint t with _ | n
  · exact Or.inr rfl
  · dsimp only
    split_ifs with h
    · exact Or.inr rfl
    · exact Or.inl ⟨n, rfl, rfl, by omega, by omega⟩

def freqUsage : String := "usage: cpu-freq <cpu> <1..1024>"

theorem FreqText.spaced (h : FreqText k t) : spaced t = t := by
  obtain ⟨cpu, scale, n, m, rfl, hn, -, -, hm, -, -⟩ := h
  rw [Cli.spaced, squeeze_neg_append (kstrtoint_clean hn), squeeze_cons_of_pos rfl,
    List.dropWhile_eq_self_iff.mpr ?_, squeeze_of_neg (kstrtoint_clean hm)]
  intro hl
  simp [kstrtoint_clean hm]

theorem cmdCpuFreq_ok (h : FreqText v.testNcpus t) :
    ∃ n m, cmdCpuFreq v (some t) = .ok (.cpuFreq n m) := by
  obtain ⟨cpu, scale, n, m, rfl, hn, hn1, hnk, hm, hm1, hmk⟩ := h
  have hclean : ' ' ∉ cpu := by
    intro hmem
    exact absurd (kstrtoint_clean hn ' ' hmem) (by decide)
  have hchr : strchr ' ' (cpu ++ ' ' :: scale) = some (cpu, scale) :=
    strchr_eq_some_iff.mpr ⟨hclean, rfl⟩
  refine ⟨n, m, ?_⟩
  simp only [cmdCpuFreq, Option.bind_some, hchr, rangeArg_ok hn hn1 hnk, rangeArg_ok hm hm1 hmk]
  rfl

theorem cmdCpuFreq_error (h : ∀ t, arg = some t → ¬ FreqText v.testNcpus t) :
    cmdCpuFreq v arg = .error freqUsage := by
  rw [cmdCpuFreq]
  rcases arg with _ | t
  · rfl
  · rcases hchr : strchr ' ' t with _ | ⟨cpu, scale⟩
    · simp only [Option.bind_some, hchr]
      rfl
    · simp only [Option.bind_some, hchr]
      obtain ⟨-, ht⟩ := strchr_eq_some_iff.mp hchr
      rcases rangeArg_cases 1 v.testNcpus freqUsage cpu with ⟨n, hcpu, hn, hn1, hnk⟩ | hcpu
      · rcases rangeArg_cases 1 1024 freqUsage scale with ⟨m, hscale, hm, hm1, hmk⟩ | hscale
        · exact absurd ⟨cpu, scale, n, m, ht, hn, hn1, hnk, hm, hm1, hmk⟩ (h t rfl)
        · rw [freqUsage] at hcpu hscale
          rw [hcpu, hscale]
          rfl
      · rw [freqUsage] at hcpu
        rw [hcpu]
        rfl

theorem verbAnswer_cpuFreq (v : CliView) (arg : Arg) :
    verbAnswer v "cpu-freq".toList arg = cmdCpuFreq v arg := by
  have hcmd : lookup (commands v) "cpu-freq".toList = some (cmdCpuFreq v) :=
    lookup_commands (List.mem_of_getElem? (i := 3) rfl)
  simp only [verbAnswer, hcmd]

theorem FreqText.ne_nil (h : FreqText k t) : t ≠ [] := by
  obtain ⟨cpu, scale, n, m, rfl, -⟩ := h
  simp

/-- Of the spellings of one list of tokens, `cpu-freq` takes the one with single spaces or
none. -/
theorem Spelled.freqText_iff (h : Spelled tokens t) (hargs : FreqArgs k tokens) :
    FreqText k (strim t) ↔ strim t = strim (singleSpaced tokens) := by
  constructor
  · intro htext
    rw [← htext.spaced, ← Cli.strim_spaced, h.strim_spaced]
  · intro heq
    rw [heq]
    exact hargs

theorem Spelled.not_freqText (h : Spelled tokens t) (hargs : ¬ FreqArgs k tokens) :
    ¬ FreqText k (strim t) := by
  intro htext
  apply hargs
  rw [FreqArgs, ← h.strim_spaced, Cli.strim_spaced, htext.spaced]
  exact htext

theorem LineOf.cpuFreq_ok (w : LineOf tokens) (h : FreqText v.testNcpus (strim w.text)) :
    ∃ n m, verbAnswer v "cpu-freq".toList (lineArg (some w.text)) = .ok (.cpuFreq n m) := by
  rw [verbAnswer_cpuFreq, lineArg_of_ne h.ne_nil]
  exact cmdCpuFreq_ok h

theorem LineOf.cpuFreq_error (w : LineOf tokens) (h : ¬ FreqText v.testNcpus (strim w.text)) :
    verbAnswer v "cpu-freq".toList (lineArg (some w.text)) = .error freqUsage := by
  rw [verbAnswer_cpuFreq]
  apply cmdCpuFreq_error
  intro t ht
  by_cases hnil : strim w.text = []
  · rw [lineArg_of_nil hnil] at ht
    cases ht
  · rw [lineArg_of_ne hnil] at ht
    cases ht
    exact h

theorem cpuFreq_ne {w w' : LineOf tokens} (hargs : FreqArgs v.testNcpus tokens)
    (h : w.SingleSpaced) (h' : ¬ w'.SingleSpaced) :
    (verbAnswer v "cpu-freq".toList (lineArg (some w.text))).map (Command.handed E k) ≠
      (verbAnswer v "cpu-freq".toList (lineArg (some w'.text))).map (Command.handed E k) := by
  obtain ⟨n, m, hok⟩ := w.cpuFreq_ok (v := v) ((w.spelled.freqText_iff hargs).mpr h)
  rw [hok, w'.cpuFreq_error (mt (w'.spelled.freqText_iff hargs).mp h')]
  intro heq
  cases heq

/-- Two lines of one verb and the same tokens do the same and get the same reply, unless they are
`cpu-freq` with the numbers it takes and one of the two has a single space between them. -/
theorem lineEffect_eq_iff (hE : SkipsBlanks E) (s : MaskSession) (x : KernelAnswers)
    (hverb : verb ∈ verbs) (htopo : verb ≠ "cpu-topo") (w w' : LineOf tokens)
    (hw : (w.line verb).length < Driver.lineMax) (hw' : (w'.line verb).length < Driver.lineMax) :
    (lineEffect E s x (w.line verb) = lineEffect E s x (w'.line verb) ∧
        ∀ a, lineReply E s x a (w.line verb) = lineReply E s x a (w'.line verb)) ↔
      (verb = "cpu-freq" → FreqArgs s.topo.testNcpus tokens →
        (w.SingleSpaced ↔ w'.SingleSpaced)) := by
  have hreply : (lineEffect E s x (w.line verb) = lineEffect E s x (w'.line verb) ∧
        ∀ a, lineReply E s x a (w.line verb) = lineReply E s x a (w'.line verb)) ↔
      lineEffect E s x (w.line verb) = lineEffect E s x (w'.line verb) := by
    refine ⟨And.left, fun h => ⟨h, fun a => ?_⟩⟩
    rw [w.lineReply_eq hverb hw, w'.lineReply_eq hverb hw', h]
  rw [hreply, w.lineEffect_eq hverb hw, w'.lineEffect_eq hverb hw', Option.some_inj]
  by_cases hfreq : verb = "cpu-freq"
  · subst hfreq
    by_cases hargs : FreqArgs s.topo.testNcpus tokens
    · by_cases hsingle : w.SingleSpaced
      · by_cases hsingle' : w'.SingleSpaced
        · rw [lineArg_congr (hsingle.trans hsingle'.symm)]
          exact ⟨fun _ _ _ => ⟨fun _ => hsingle', fun _ => hsingle⟩, fun _ => rfl⟩
        · have hne := cpuFreq_ne (v := s.view E x) (E := E) (k := s.topo.testNcpus) hargs hsingle
            hsingle'
          exact ⟨fun h => absurd h hne, fun h => absurd ((h rfl hargs).mp hsingle) hsingle'⟩
      · by_cases hsingle' : w'.SingleSpaced
        · have hne := cpuFreq_ne (v := s.view E x) (E := E) (k := s.topo.testNcpus) hargs hsingle'
            hsingle
          exact ⟨fun h => absurd h.symm hne, fun h => absurd ((h rfl hargs).mpr hsingle') hsingle⟩
        · have herror := w.cpuFreq_error (v := s.view E x)
            (mt (w.spelled.freqText_iff hargs).mp hsingle)
          have herror' := w'.cpuFreq_error (v := s.view E x)
            (mt (w'.spelled.freqText_iff hargs).mp hsingle')
          rw [herror, herror']
          exact ⟨fun _ _ _ => ⟨fun h => absurd h hsingle, fun h => absurd h hsingle'⟩, fun _ => rfl⟩
    · have herror := w.cpuFreq_error (v := s.view E x) (w.spelled.not_freqText hargs)
      have herror' := w'.cpuFreq_error (v := s.view E x) (w'.spelled.not_freqText hargs)
      rw [herror, herror']
      exact ⟨fun _ _ h => absurd h hargs, fun _ => rfl⟩
  · have hv : ∀ list, (s.view E x).validCpus list =
        (list.bind (kstepParseCpus E (s.view E x).testNcpus)).isSome := fun _ => rfl
    have harg : (lineArg (some w.text)).map spaced = (lineArg (some w'.text)).map spaced := by
      rw [w.spelled.lineArg, w'.spelled.lineArg]
    refine ⟨fun _ h => absurd h hfreq, fun _ => ?_⟩
    rw [← verbAnswer_spaced hE hv hfreq htopo, harg, verbAnswer_spaced hE hv hfreq htopo]

/-- A line of two tokens, with a space before them and a gap between them. -/
def pairLine (first gap second : List Char) (hfirst : first ≠ [] ∧ isClean first = true)
    (hgap : gap ≠ [] ∧ gap.all isBlank = true) (hsecond : second ≠ [] ∧ isClean second = true) :
    LineOf [first, second] where
  lead := []
  text := [' '] ++ (first ++ (gap ++ (second ++ [])))
  lead_blank := by simp
  spelled := .cons (by simp) (by simp [isBlank]) hfirst.1 (isClean_iff.mp hfirst.2)
    (.cons hgap.1 (List.all_eq_true.mp hgap.2) hsecond.1 (isClean_iff.mp hsecond.2)
      (.nil (by simp)))

theorem rangeEnv_skipsBlanks : SkipsBlanks rangeEnv := by
  have hclean (name : List Char) (hname : isClean name = true) (s : List Char) :
      spaced s = name ↔ s = name :=
    squeeze_iff_of_clean (P := (· = name)) rfl (by rintro s rfl; exact isClean_iff.mp hname)
  intro s
  simp only [rangeEnv, hclean "1-3".toList (by decide), hclean "1".toList (by decide)]

def rangeSession : MaskSession := ⟨rangeTopo, [⟨true, {1}⟩], true⟩

/-- `affinity 1 1-3` with a space and with a tab. -/
theorem affinity_tab_same :
    lineEffect rangeEnv rangeSession plainAnswers "affinity 1\t1-3".toList =
      some (.ok (some (.affinity 0 none, some {1, 2, 3}))) := by
  have hspace : lineEffect rangeEnv rangeSession plainAnswers "affinity 1 1-3".toList =
      some (.ok (some (.affinity 0 none, some {1, 2, 3}))) := by rfl
  have h := (lineEffect_eq_iff rangeEnv_skipsBlanks rangeSession plainAnswers
    (show "affinity" ∈ verbs by decide) (by decide)
    (pairLine "1".toList [' '] "1-3".toList (by decide) (by decide) (by decide))
    (pairLine "1".toList ['\t'] "1-3".toList (by decide) (by decide) (by decide)) (by decide)
    (by decide)).mpr (fun hfreq => absurd hfreq (by decide))
  exact h.1.symm.trans hspace

/-- `cpu-freq 1 512` sets a frequency, and with a tab between its numbers it is an error. -/
theorem cpuFreq_tab_refused :
    ¬ ∀ (E : Env) (s : MaskSession) (x : KernelAnswers) (verb : String)
      (tokens : List (List Char)) (w w' : LineOf tokens), SkipsBlanks E → verb ∈ verbs →
        verb ≠ "cpu-topo" → (w.line verb).length < Driver.lineMax →
        (w'.line verb).length < Driver.lineMax →
        lineEffect E s x (w.line verb) = lineEffect E s x (w'.line verb) ∧
          ∀ a, lineReply E s x a (w.line verb) = lineReply E s x a (w'.line verb) := by
  intro h
  have heq := (h rangeEnv rangeSession plainAnswers "cpu-freq" _
    (pairLine "1".toList [' '] "512".toList (by decide) (by decide) (by decide))
    (pairLine "1".toList ['\t'] "512".toList (by decide) (by decide) (by decide))
    rangeEnv_skipsBlanks (by decide) (by decide) (by decide) (by decide)).1
  have hspace : lineEffect rangeEnv rangeSession plainAnswers "cpu-freq 1 512".toList =
      some (.ok (some (.cpuFreq 1 512, none))) := by rfl
  have htab : lineEffect rangeEnv rangeSession plainAnswers "cpu-freq 1\t512".toList =
      some (.error freqUsage) := by rfl
  have habsurd := hspace.symm.trans (heq.trans htab)
  cases habsurd

end KStep.Cli
