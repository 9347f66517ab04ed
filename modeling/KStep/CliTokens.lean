import KStep.CliSpacing
import KStep.Driver

/-!
# Lines that differ only in their blanks

A line made of a verb and tokens reaches its command with the tokens, whatever blanks are between
them, and every command but `cpu-freq` and `cpu-topo` answers to the tokens alone.
-/

namespace KStep.Cli

open CString Trim Squeeze KStep.Topology FlatJson

/-- What `execute` does once a line is taken apart. -/
def verbAnswer (v : CliView) (verb : List Char) (arg : Arg) : Except String Command :=
  match lookup (commands v) verb, lookup taskVerbs verb with
  | some cmd, _ => cmd arg
  | none, some act => do
      let (p, _) ← parseTask v arg
        (String.ofList (strscpy 32 ("usage: ".toList ++ verb ++ " <n>".toList)))
      pure (.task act p)
  | none, none => if verb = "exit".toList then pure .exit else throw "unknown command"

/-- Tokens as a text: a run of blanks before each, and blanks after the last. -/
inductive Spelled : List (List Char) → List Char → Prop
  | nil {trail : List Char} (htrail : ∀ c ∈ trail, isBlank c = true) : Spelled [] trail
  | cons {gap token text : List Char} {tokens : List (List Char)} (hne : gap ≠ [])
      (hgap : ∀ c ∈ gap, isBlank c = true) (htoken : token ≠ [])
      (hclean : ∀ c ∈ token, isBlank c = false) (h : Spelled tokens text) :
      Spelled (token :: tokens) (gap ++ (token ++ text))

structure LineOf (tokens : List (List Char)) where
  lead : List Char
  text : List Char
  lead_blank : ∀ c ∈ lead, isBlank c = true
  spelled : Spelled tokens text

def LineOf.line {tokens : List (List Char)} (w : LineOf tokens) (verb : String) : List Char :=
  w.lead ++ (verb.toList ++ w.text)

def singleSpaced (tokens : List (List Char)) : List Char := tokens.flatMap (' ' :: ·)

def verbs : List String := (commands plainView).map Prod.fst ++ taskVerbs.map Prod.fst

/-- What `run` does with a line from the channel in the state `s`: nothing, an error text, or a
command for the module. -/
def lineEffect (E : Env) (s : MaskSession) (x : KernelAnswers) (line : List Char) :
    Option (Except String (Option (Command × Option (Finset ℕ)))) :=
  (runLine (s.view E x) (strscpy Driver.lineMax line)).map
    (Except.map (Command.handed E s.topo.testNcpus))

def lineReply (E : Env) (s : MaskSession) (x : KernelAnswers) (a : Answers) (line : List Char) :
    Option (List Field) :=
  replyFields (s.view E x) a (strim (strscpy Driver.lineMax line))

variable {E : Env} {v : CliView} {k : ℕ} {arg : Arg} {t t' : List Char} {verb : String}
  {tokens : List (List Char)} {s : MaskSession} {x : KernelAnswers} {a : Answers}

theorem Spelled.spaced (h : Spelled tokens t) :
    ∃ trail, (∀ c ∈ trail, isBlank c = true) ∧ spaced t = singleSpaced tokens ++ trail := by
  induction h with
  | @nil trail htrail => exact ⟨Cli.spaced trail, squeeze_all rfl htrail, rfl⟩
  | @cons gap token text tokens hne hgap htoken hclean h ih =>
      obtain ⟨trail, htrail, htext⟩ := ih
      refine ⟨trail, htrail, ?_⟩
      obtain ⟨c, token, rfl⟩ := List.exists_cons_of_ne_nil htoken
      rw [List.forall_mem_cons] at hclean
      rw [Cli.spaced] at htext
      rw [Cli.spaced, List.cons_append, squeeze_append_cons hclean.1, squeeze_of_pos hne hgap,
        squeeze_neg_append hclean.2, htext]
      simp [singleSpaced]

theorem Spelled.head (h : Spelled tokens t) :
    t = [] ∨ ∃ d u, t = d :: u ∧ isBlank d = true := by
  cases h with
  | nil htrail =>
      rcases t with _ | ⟨d, u⟩
      · exact Or.inl rfl
      · exact Or.inr ⟨d, u, rfl, htrail d (by simp)⟩
  | cons hne hgap =>
      rename_i gap _ _ _ _ _ _
      obtain ⟨d, gap, rfl⟩ := List.exists_cons_of_ne_nil hne
      exact Or.inr ⟨d, _, rfl, hgap d (by simp)⟩

theorem lineArg_congr (h : strim t = strim t') : lineArg (some t) = lineArg (some t') := by
  simp only [lineArg, Option.map_some, h]

theorem lineArg_of_ne (h : strim t ≠ []) : lineArg (some t) = some (strim t) := by
  rw [lineArg, Option.map_some]
  split
  · rename_i heq
    exact absurd (Option.some.inj heq) h
  · rfl

theorem lineArg_of_nil (h : strim t = []) : lineArg (some t) = none := by
  rw [lineArg, Option.map_some, h]

theorem lineArg_spaced (t : List Char) :
    (lineArg (some t)).map spaced = lineArg (some (spaced t)) := by
  by_cases h : strim t = []
  · rw [lineArg_of_nil h, lineArg_of_nil (by rw [strim_spaced, h]; rfl)]
    rfl
  · rw [lineArg_of_ne h, lineArg_of_ne (by rw [strim_spaced]; exact mt spaced_eq_nil_iff.mp h),
      strim_spaced]
    rfl

theorem Spelled.strim_spaced (h : Spelled tokens t) :
    strim (Cli.spaced t) = strim (singleSpaced tokens) := by
  obtain ⟨trail, htrail, hspaced⟩ := h.spaced
  rw [hspaced]
  exact trimBy_append_pos fun c hc => isspace_of_isBlank (htrail c hc)

/-- The argument is the tokens with one space between them, but for its blanks. -/
theorem Spelled.lineArg (h : Spelled tokens t) :
    (Cli.lineArg (some t)).map Cli.spaced = Cli.lineArg (some (singleSpaced tokens)) := by
  rw [lineArg_spaced, lineArg_congr h.strim_spaced]

theorem execute_eq_verbAnswer {line token : List Char} {rest : Arg}
    (h : strsep isBlank line = (token, rest)) :
    execute v line = verbAnswer v token (lineArg rest) := by
  rw [execute, h]
  rfl

theorem verbs_word (h : verb ∈ verbs) :
    IsWord verb.toList ∧ verb.toList.head? ≠ some '#' := by
  have hall : ∀ verb ∈ verbs, IsWord verb.toList ∧ verb.toList.head? ≠ some '#' := by decide
  exact hall verb h

theorem LineOf.strim_line (w : LineOf tokens) (h : IsWord verb.toList) :
    strim (w.line verb) = verb.toList ++ w.text.rdropWhile isspace := by
  rw [line, strim, trimBy_pos_append fun c hc => isspace_of_isBlank (w.lead_blank c hc)]
  exact h.strim w.text

/-- A line reaches its verb with the text after it. -/
theorem LineOf.execute_eq (w : LineOf tokens) (h : IsWord verb.toList) :
    execute v (strim (w.line verb)) = verbAnswer v verb.toList (lineArg (some w.text)) := by
  rw [w.strim_line h]
  rcases w.spelled.head with hnil | ⟨d, u, htext, hd⟩
  · rw [hnil, List.rdropWhile_nil, execute_eq_verbAnswer (h.strsep (Or.inl rfl))]
    rfl
  · have htrim : strim w.text = strim u := by
      rw [htext]
      exact trimBy_pos_append (u := [d]) (by simpa using isspace_of_isBlank hd)
    rw [htext]
    rcases rdropWhile_blank d u with ⟨hu, hnil⟩ | ⟨u', hu, hu'⟩
    · rw [hu, execute_eq_verbAnswer (h.strsep (Or.inl rfl)), ← htext,
        lineArg_of_nil (htrim.trans hnil)]
      rfl
    · rw [hu, execute_eq_verbAnswer (h.strsep (Or.inr ⟨d, u', rfl, hd⟩)), ← htext,
        lineArg_congr (htrim.trans hu'.symm)]
      rfl

theorem LineOf.runLine_eq (w : LineOf tokens) (h : verb ∈ verbs) :
    runLine v (w.line verb) = some (verbAnswer v verb.toList (lineArg (some w.text))) := by
  obtain ⟨hword, hhash⟩ := verbs_word h
  have hstrim := w.strim_line hword
  rw [← w.execute_eq hword]
  obtain ⟨c, u, hu⟩ := List.exists_cons_of_ne_nil hword.1
  rw [hu] at hstrim hhash
  rw [runLine]
  split
  · rename_i hnil
    rw [hnil] at hstrim
    cases hstrim
  · rename_i heq
    rw [heq] at hstrim
    cases hstrim
    exact absurd rfl hhash
  · rfl

def handedReply (v : CliView) (a : Answers) :
    Except String (Option (Command × Option (Finset ℕ))) → Option (List Field)
  | .error msg => some (replyError msg)
  | .ok none => some (replyError "no such check")
  | .ok (some c) => replyCommand v a c.1

theorem replyFields_eq_handedReply (E : Env) (k : ℕ) (line : List Char) :
    replyFields v a line = handedReply v a ((execute v line).map (Command.handed E k)) := by
  rw [replyFields]
  rcases execute v line with msg | c
  · rfl
  · cases c with
    | check name =>
        simp only [Except.map, Command.handed, replyCommand]
        by_cases hname : isCheck name = true
        · simp only [if_pos hname, if_pos (isCheck_iff.mp hname), handedReply, replyCommand]
        · simp only [if_neg hname, if_neg (mt isCheck_iff.mpr hname), handedReply]
    | _ => rfl

/-- Every verb but `cpu-freq` and `cpu-topo` reads its argument the same however it is spaced. -/
theorem verbAnswer_spaced (hE : SkipsBlanks E)
    (hv : ∀ list, v.validCpus list = (list.bind (kstepParseCpus E v.testNcpus)).isSome)
    (hfreq : verb ≠ "cpu-freq") (htopo : verb ≠ "cpu-topo") (arg : Arg) :
    (verbAnswer v verb.toList (arg.map spaced)).map (Command.handed E k) =
      (verbAnswer v verb.toList arg).map (Command.handed E k) := by
  rcases hcmd : lookup (commands v) verb.toList with _ | cmd
  · rcases hact : lookup taskVerbs verb.toList with _ | act
    · simp only [verbAnswer, hcmd, hact]
    · simp only [verbAnswer, hcmd, hact, parseTask_spaced]
      rcases parseTask v arg _ with msg | ⟨p, rest⟩ <;> rfl
  · have hanswer (arg : Arg) : verbAnswer v verb.toList arg = cmd arg := by
      simp only [verbAnswer, hcmd]
    rw [hanswer, hanswer]
    obtain ⟨name, hname, hmem⟩ := lookup_mem hcmd
    rw [String.toList_inj] at hname
    subst hname
    simp only [commands, List.mem_cons, Prod.mk.injEq, List.not_mem_nil, or_false] at hmem
    rcases hmem with ⟨-, rfl⟩ | ⟨-, rfl⟩ | ⟨rfl, -⟩ | ⟨rfl, -⟩ | ⟨-, rfl⟩ | ⟨-, rfl⟩ | ⟨-, rfl⟩ |
      ⟨-, rfl⟩ | ⟨-, rfl⟩ | ⟨-, rfl⟩ | ⟨-, rfl⟩ | ⟨-, rfl⟩ | ⟨-, rfl⟩
    · rw [cmdCreate, cmdCreate, createRequest_spaced]
    · rw [cmdTick_spaced]
    · exact absurd rfl htopo
    · exact absurd rfl hfreq
    · rw [cmdPolicyFair_spaced]
    · rw [cmdPolicyRt_spaced]
    · exact cmdAffinity_spaced hE v arg
    · rw [cmdCgroupCreate_spaced]
    · rw [cmdCgroupWeight_spaced]
    · exact cmdCgroupCpus_spaced hE hv arg
    · rw [cmdCgroupDestroy_spaced]
    · rw [cmdCgroupAttach_spaced]
    · exact cmdCheck_spaced arg

theorem LineOf.lineEffect_eq (w : LineOf tokens) (h : verb ∈ verbs)
    (hfits : (w.line verb).length < Driver.lineMax) :
    lineEffect E s x (w.line verb) =
      some ((verbAnswer (s.view E x) verb.toList (lineArg (some w.text))).map
        (Command.handed E s.topo.testNcpus)) := by
  rw [lineEffect, strscpy, List.take_of_length_le (by omega), w.runLine_eq h]
  rfl

theorem LineOf.lineReply_eq (w : LineOf tokens) (h : verb ∈ verbs)
    (hfits : (w.line verb).length < Driver.lineMax) :
    lineReply E s x a (w.line verb) =
      (lineEffect E s x (w.line verb)).bind (handedReply (s.view E x) a) := by
  rw [w.lineEffect_eq h hfits, lineReply, strscpy, List.take_of_length_le (by omega),
    replyFields_eq_handedReply E s.topo.testNcpus, w.execute_eq (verbs_word h).1]
  rfl

end KStep.Cli
