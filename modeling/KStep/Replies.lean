import KStep.Cli
import KStep.Topology
import KStep.Records

/-!
# What a command adds to its reply

`run` opens the reply, the command adds at most one field and `run` closes it. The field is the
error text, the number of the last task created, or missing on plain success. Error texts are plain
and short and no reply has a `type`, so a reply always fits the buffer and is never taken for an
event.
-/

namespace KStep

open FlatJson Cli CString KStep.Topology EarlyExit

/-- What the helpers return to the command that calls them; a failure is a negative number. The
first `i` calls of `kstep_cgroup_move_task` are those for the tasks created so far. -/
structure Answers where
  /-- `kstep_cgroup_move_task` -/
  moveTask : ℕ → ℤ
  /-- `kstep_task_set_affinity` -/
  setAffinity : ℤ
  /-- `kstep_cgroup_create`, `kstep_cgroup_set_weight` or `kstep_cgroup_set_cpuset` -/
  setCgroup : ℤ
  /-- `cgroup_get_from_path` -/
  cgroupFound : Bool
  cgroupBusy : Bool
  env : Env
  topo : Topo

def replyError (msg : String) : List Field := [("error".toList, .str msg.toList)]

def ebusy : ℤ := 16
def einval : ℤ := 22
def erange : ℤ := 34
def eopnotsupp : ℤ := 95

def replyErrno (err : ℤ) : List Field :=
  if err = 0 then []
  else if err = -eopnotsupp ∨ err = -ebusy then
    replyError "cgroup cannot hold both tasks and controlled children"
  else replyError (String.ofList (strscpy 48
    ("failed (errno ".toList ++ numText (wrap32 (-err)) ++ ")".toList)))

def checks : List String :=
  ["sync_wakeup", "vruntime", "pelt", "frozen", "balance", "work_conserve", "util_decay"]

def replyCreate (v : CliView) (a : Answers) (n : ℤ) (path : Arg) : List Field :=
  match path, ((List.range n.toNat).map a.moveTask).find? (· ≠ 0) with
  | some _, some err => replyErrno err
  | _, _ => [("task".toList, .num (wrap32 (v.ntasks + n)))]

def replyAffinity (err : ℤ) : List Field :=
  if err = -erange then replyError "usage: affinity <n> <cpulist within 1..CPUS>"
  else if err = -einval then replyError "cpulist has no CPU in the task's cgroup cpuset"
  else replyErrno err

/-- What a command that has passed its parsers adds; `none` when it panics. -/
def replyCommand (v : CliView) (a : Answers) : Command → Option (List Field)
  | .create n path => some (replyCreate v a n path)
  | .affinity _ _ => some (replyAffinity a.setAffinity)
  | .cgroupCreate _ => some (replyErrno a.setCgroup)
  | .cgroupWeight _ _ => some (replyErrno a.setCgroup)
  | .cgroupCpus _ _ => some (replyErrno a.setCgroup)
  | .cgroupDestroy _ =>
      some (if !a.cgroupFound then replyError "no such cgroup"
        else if a.cgroupBusy then replyError "cgroup has tasks or children" else [])
  | .cgroupAttach _ _ => some (replyErrno (a.moveTask 0))
  | .check name => some (if name ∈ checks.map String.toList then [] else replyError "no such check")
  | .cpuTopo spec => (kstepTopoSet a.env a.topo spec).map fun r => (r.1.map replyError).getD []
  | .tick _ => some []
  | .cpuFreq _ _ => some []
  | .policyFair _ _ _ => some []
  | .policyRt _ _ _ => some []
  | .task _ _ => some []
  | .exit => some []

def replyFields (v : CliView) (a : Answers) (line : List Char) : Option (List Field) :=
  match execute v line with
  | .error msg => some (replyError msg)
  | .ok c => replyCommand v a c

def ReplyText (msg : String) : Prop := PlainText msg.toList ∧ msg.toList.length ≤ 100

instance : DecidablePred ReplyText := fun msg =>
  inferInstanceAs (Decidable (PlainText msg.toList ∧ msg.toList.length ≤ 100))

/-- Fields that can stand in a reply: at most one, which is not the type of an event. -/
structure ReplyFields (fields : List Field) : Prop where
  plain : PlainRecord fields
  untyped : ∀ f ∈ fields, f.1 ≠ "type".toList
  short : (fieldsText fields).length ≤ 110
  bounded : BoundedRecord fields

/-- Whatever error `x` is, it is one of `P`. -/
def ErrorIn {α : Type} (P : String → Prop) (x : Except String α) : Prop :=
  ∀ msg, x = .error msg → P msg

section ErrorIn

variable {α β : Type} {P : String → Prop} {x : Except String α} {msg : String}

theorem errorIn_pure (a : α) : ErrorIn P (pure a : Except String α) := by
  intro msg h
  cases h

theorem errorIn_throw (h : P msg) : ErrorIn P (throw msg : Except String α) := by
  intro msg' h'
  cases h'
  exact h

theorem errorIn_bind {f : α → Except String β} (hx : ErrorIn P x) (hf : ∀ a, ErrorIn P (f a)) :
    ErrorIn P (x >>= f) := by
  intro msg h
  cases hresult : x with
  | error msg' =>
      rw [hresult] at h
      cases h
      exact hx msg hresult
  | ok a =>
      rw [hresult] at h
      exact hf a msg h

theorem errorIn_map {f : α → β} (hx : ErrorIn P x) : ErrorIn P (x.map f) := by
  intro msg h
  cases hresult : x with
  | error msg' =>
      rw [hresult] at h
      cases h
      exact hx msg hresult
  | ok a =>
      rw [hresult] at h
      cases h

end ErrorIn

variable {v : CliView} {a : Answers} {line : List Char} {arg : Arg} {usage msg : String}
  {fields : List Field}

/-- A literal is the string of its characters, so its text is checked on them. -/
theorem replyText_ofList {l : List Char}
    (h : (l.all plainChar && decide (l.length ≤ 100)) = true) : ReplyText (String.ofList l) := by
  rw [Bool.and_eq_true, List.all_eq_true, decide_eq_true_eq] at h
  rw [ReplyText, String.toList_ofList]
  exact h

theorem rangeArg_errorIn (hu : ReplyText usage) (lo hi : ℤ) (s : List Char) :
    ErrorIn ReplyText (rangeArg lo hi usage s) := by
  unfold rangeArg
  split
  · split_ifs
    · exact errorIn_throw hu
    · exact errorIn_pure _
  · exact errorIn_throw hu

theorem parseTask_errorIn (hu : ReplyText usage) : ErrorIn ReplyText (parseTask v arg usage) := by
  unfold parseTask
  split
  · exact errorIn_throw hu
  · split
    · exact errorIn_throw hu
    · split_ifs
      · exact errorIn_throw hu
      · exact errorIn_throw (replyText_ofList rfl)
      · exact errorIn_pure _

theorem parseCgroup_errorIn (hu : ReplyText usage) (create : Bool) :
    ErrorIn ReplyText (parseCgroup v arg usage create) := by
  unfold parseCgroup
  split
  · split_ifs
    · exact errorIn_throw hu
    · exact errorIn_throw (replyText_ofList rfl)
    · exact errorIn_pure _
    · exact errorIn_throw (replyText_ofList rfl)
    · exact errorIn_pure _
  · exact errorIn_throw hu

theorem createRequest_errorIn : ErrorIn ReplyText (createRequest v arg) := by
  have hu : ReplyText createUsage := replyText_ofList rfl
  refine errorIn_bind (errorIn_bind ?_ fun count => errorIn_bind ?_ fun path => errorIn_pure _)
    ?_
  · unfold createCount
    repeat' split
    all_goals first | exact errorIn_pure _ | exact errorIn_throw hu
  · unfold createPath
    split
    · exact errorIn_pure _
    · exact errorIn_pure _
    · split
      · rename_i hparse
        exact errorIn_throw (parseCgroup_errorIn hu false _ hparse)
      · exact errorIn_pure _
      · exact errorIn_throw hu
  · rintro ⟨n, path⟩
    dsimp only
    split_ifs
    · exact errorIn_throw (replyText_ofList rfl)
    · exact errorIn_pure _

theorem cmdPolicyFair_errorIn : ErrorIn ReplyText (cmdPolicyFair v arg) := by
  have hu : ReplyText "usage: policy-fair <n> <normal|batch|idle> [-20..19]" := replyText_ofList rfl
  refine errorIn_bind (parseTask_errorIn hu) ?_
  rintro ⟨p, rest⟩
  rcases hrest : takeArg rest with ⟨name, _ | s⟩
  all_goals simp only [hrest]
  · refine errorIn_bind (errorIn_pure _) fun nice => ?_
    split
    · exact errorIn_pure _
    · exact errorIn_throw hu
  · refine errorIn_bind (errorIn_map (rangeArg_errorIn hu _ _ _)) fun nice => ?_
    split
    · exact errorIn_pure _
    · exact errorIn_throw hu

theorem cmdPolicyRt_errorIn : ErrorIn ReplyText (cmdPolicyRt v arg) := by
  have hu : ReplyText "usage: policy-rt <n> <fifo|rr> <1..99>" := replyText_ofList rfl
  refine errorIn_bind (parseTask_errorIn hu) ?_
  rintro ⟨p, rest⟩
  rcases hrest : takeArg rest with ⟨name, _ | s⟩
  all_goals simp only [hrest]
  · refine errorIn_bind (errorIn_throw hu) fun prio => ?_
    split
    · exact errorIn_pure _
    · exact errorIn_throw hu
  · refine errorIn_bind (rangeArg_errorIn hu _ _ _) fun prio => ?_
    split
    · exact errorIn_pure _
    · exact errorIn_throw hu

/-- Every parser of `commands` fails with a text that can stand in a reply. -/
theorem commands_errorIn {verb : List Char} {cmd : Arg → Except String Command}
    (hcmd : lookup (commands v) verb = some cmd) : ErrorIn ReplyText (cmd arg) := by
  obtain ⟨name, -, hmem⟩ := lookup_mem hcmd
  simp only [commands, List.mem_cons, Prod.mk.injEq, List.not_mem_nil, or_false] at hmem
  rcases hmem with ⟨-, rfl⟩ | ⟨-, rfl⟩ | ⟨-, rfl⟩ | ⟨-, rfl⟩ | ⟨-, rfl⟩ | ⟨-, rfl⟩ | ⟨-, rfl⟩ |
    ⟨-, rfl⟩ | ⟨-, rfl⟩ | ⟨-, rfl⟩ | ⟨-, rfl⟩ | ⟨-, rfl⟩ | ⟨-, rfl⟩
  · exact errorIn_map createRequest_errorIn
  · unfold cmdTick
    split
    · exact errorIn_pure _
    · exact errorIn_map (rangeArg_errorIn (replyText_ofList rfl) _ _ _)
  · unfold cmdCpuTopo
    split
    · exact errorIn_throw (replyText_ofList rfl)
    · exact errorIn_pure _
  · have hu : ReplyText "usage: cpu-freq <cpu> <1..1024>" := replyText_ofList rfl
    unfold cmdCpuFreq
    split
    · exact errorIn_throw hu
    · exact errorIn_bind (rangeArg_errorIn hu _ _ _) fun cpu =>
        errorIn_bind (rangeArg_errorIn hu _ _ _) fun scale => errorIn_pure _
  · exact cmdPolicyFair_errorIn
  · exact cmdPolicyRt_errorIn
  · exact errorIn_bind (parseTask_errorIn (replyText_ofList rfl)) fun p => errorIn_pure _
  · exact errorIn_bind (parseCgroup_errorIn (replyText_ofList rfl) true) fun p => errorIn_pure _
  · have hu : ReplyText "usage: cgroup-weight /path <1..10000>" := replyText_ofList rfl
    refine errorIn_bind (parseCgroup_errorIn hu false) ?_
    rintro ⟨name, _ | s⟩
    · exact errorIn_throw hu
    · exact errorIn_map (rangeArg_errorIn hu _ _ _)
  · have hu : ReplyText "usage: cgroup-cpus /path <cpulist within 1..CPUS>" := replyText_ofList rfl
    refine errorIn_bind (parseCgroup_errorIn hu false) ?_
    rintro ⟨name, rest⟩
    dsimp only
    split_ifs
    · exact errorIn_pure _
    · exact errorIn_throw hu
  · refine errorIn_bind (parseCgroup_errorIn (replyText_ofList rfl) false) ?_
    rintro ⟨name, rest⟩
    dsimp only
    split_ifs
    · exact errorIn_throw (replyText_ofList rfl)
    · exact errorIn_pure _
  · have hu : ReplyText "usage: cgroup-attach /path <n>" := replyText_ofList rfl
    refine errorIn_bind (parseCgroup_errorIn hu false) fun p => ?_
    exact errorIn_bind (parseTask_errorIn hu) fun q => errorIn_pure _
  · unfold cmdCheck
    split
    · exact errorIn_throw (replyText_ofList rfl)
    · exact errorIn_pure _

theorem taskUsage_replyText {verb : List Char} {act : TaskVerb}
    (hact : lookup taskVerbs verb = some act) :
    ReplyText (String.ofList (strscpy 32 ("usage: ".toList ++ verb ++ " <n>".toList))) := by
  obtain ⟨name, rfl, hmem⟩ := lookup_mem hact
  have hverbs : ∀ e ∈ taskVerbs, ReplyText (String.ofList (strscpy 32
      ("usage: ".toList ++ e.1.toList ++ " <n>".toList))) := by decide +kernel
  exact hverbs (name, act) hmem

theorem execute_errorIn (v : CliView) (line : List Char) : ErrorIn ReplyText (execute v line) := by
  unfold execute
  split
  split
  · rename_i hcmd
    exact commands_errorIn hcmd
  · rename_i hact
    exact errorIn_bind (parseTask_errorIn (taskUsage_replyText hact)) fun p => errorIn_pure _
  · split_ifs
    · exact errorIn_pure _
    · exact errorIn_throw (replyText_ofList rfl)

theorem topoSetGroup_error {E : Env} {k : ℕ} {key : Key} {s : Draft × Finset ℕ} {text : List Char}
    (h : (topoSetGroup E k key s text).1 = some msg) : ReplyText msg := by
  have hgroup : ErrorIn ReplyText (groupScale E key text) := by
    unfold groupScale
    repeat' split
    all_goals first | exact errorIn_throw (replyText_ofList rfl) | exact errorIn_pure _
  have hparse (list : List Char) : ErrorIn ReplyText (topoParseGroup E k list s.2) := by
    unfold topoParseGroup
    repeat' split
    all_goals first | exact errorIn_throw (replyText_ofList rfl) | exact errorIn_pure _
  unfold topoSetGroup at h
  split at h
  · rename_i hscale
    cases h
    exact hgroup _ hscale
  · split at h
    · rename_i hlist
      cases h
      exact hparse _ _ hlist
    · cases h

theorem topoSetEntry_error {E : Env} {k : ℕ} {d : Draft} {entry : List Char}
    (h : (topoSetEntry E k d entry).1 = some msg) : ReplyText msg := by
  unfold topoSetEntry at h
  split_ifs at h
  split at h
  · cases h
    exact replyText_ofList rfl
  · cases h
    exact replyText_ofList rfl
  · unfold topoSetKey at h
    split at h
    · cases h
    · cases h
      exact replyText_ofList rfl
    · exact stopFold_error (fun s text e he => topoSetGroup_error he) h

theorem kstepTopoSet_error {E : Env} {t t' : Topo} {spec : List Char}
    (h : kstepTopoSet E t spec = some (some msg, t')) : ReplyText msg := by
  rcases kstepTopoSet_cases h with ⟨-, herr, -⟩ | ⟨k, table, masks, -, -, herr, -⟩
  · cases herr
    exact replyText_ofList rfl
  · exact stopFold_error (fun s entry e he => topoSetEntry_error he) herr.symm

theorem replyFields_nil : ReplyFields [] :=
  ⟨by simp [PlainRecord], by simp, by simp [fieldsText], by simp [BoundedRecord]⟩

theorem replyFields_singleton {key : List Char} {value : Value} (hkey : PlainText key)
    (htype : key ≠ "type".toList) (hvalue : value.Plain)
    (hshort : key.length + value.text.length ≤ 107) (hbounded : value.Bounded) :
    ReplyFields [(key, value)] := by
  refine ⟨fun f hf => ?_, fun f hf => ?_, ?_, fun f hf => ?_⟩
  · rw [List.mem_singleton.mp hf]
    exact ⟨hkey, hvalue⟩
  · rw [List.mem_singleton.mp hf]
    exact htype
  · rw [fieldsText, length_fieldText]
    dsimp only
    omega
  · rw [List.mem_singleton.mp hf]
    exact hbounded

theorem replyFields_error (h : ReplyText msg) : ReplyFields (replyError msg) := by
  refine replyFields_singleton (by decide) (by decide) h.1 ?_ trivial
  have hkey : "error".toList.length = 5 := by decide
  have hlen := h.2
  simp only [Value.text, quoted, List.length_append, List.length_cons, List.length_nil, hkey]
  omega

/-- The text of an `int` has at most eleven characters. -/
theorem length_numText_wrap32 (n : ℤ) : (numText (wrap32 n)).length ≤ 11 := by
  have hlo := Int.le_bmod (x := n) (m := 2 ^ 32) (by decide)
  have hhi := Int.bmod_lt (x := n) (m := 2 ^ 32) (by decide)
  have hdigits {m : ℕ} (hm : m ≤ 2 ^ 31) : (Nat.toDigits 10 m).length ≤ 10 :=
    (Nat.length_toDigits_le_iff (by decide) (by decide)).mpr (by omega)
  unfold wrap32
  rcases h : Int.bmod n (2 ^ 32) with m | m
  · rw [h] at hhi
    have hm := hdigits (m := m) (by simp at hhi; omega)
    simp only [numText]
    omega
  · rw [h] at hlo
    have hm := hdigits (m := m + 1) (by simp at hlo; omega)
    simp only [numText, List.length_cons]
    omega

theorem bounded_wrap32 (n : ℤ) : (Value.num (wrap32 n)).Bounded := by
  have hlo := Int.le_bmod (x := n) (m := 2 ^ 32) (by decide)
  have hhi := Int.bmod_lt (x := n) (m := 2 ^ 32) (by decide)
  unfold wrap32 Value.Bounded
  omega

theorem replyErrno_fields (err : ℤ) : ReplyFields (replyErrno err) := by
  unfold replyErrno
  split_ifs
  · exact replyFields_nil
  · exact replyFields_error (replyText_ofList rfl)
  · refine replyFields_error ⟨?_, ?_⟩
    · rw [String.toList_ofList]
      intro c hc
      have hmem := List.mem_of_mem_take hc
      rw [List.mem_append, List.mem_append] at hmem
      rcases hmem with (hmem | hmem) | hmem
      · exact (by decide : PlainText "failed (errno ".toList) c hmem
      · exact numText_plain _ c hmem
      · exact (by decide : PlainText ")".toList) c hmem
    · rw [String.toList_ofList, strscpy, List.length_take]
      omega

theorem replyCreate_fields (v : CliView) (a : Answers) (n : ℤ) (path : Arg) :
    ReplyFields (replyCreate v a n path) := by
  unfold replyCreate
  split
  · exact replyErrno_fields _
  · have hkey : "task".toList.length = 4 := by decide
    have hlen := length_numText_wrap32 (v.ntasks + n)
    refine replyFields_singleton (by decide) (by decide) trivial ?_ (bounded_wrap32 _)
    simp only [Value.text, hkey]
    omega

theorem replyAffinity_fields (err : ℤ) : ReplyFields (replyAffinity err) := by
  unfold replyAffinity
  split_ifs
  · exact replyFields_error (replyText_ofList rfl)
  · exact replyFields_error (replyText_ofList rfl)
  · exact replyErrno_fields err

/-- Every path of `execute` leaves at most one field, plain, short and not a `type`. -/
theorem replyFields_ok (h : replyFields v a line = some fields) : ReplyFields fields := by
  unfold replyFields at h
  split at h
  · rename_i msg hmsg
    cases h
    exact replyFields_error (execute_errorIn v line msg hmsg)
  · rename_i c _
    cases c
    case create => cases h; exact replyCreate_fields v a _ _
    case affinity => cases h; exact replyAffinity_fields _
    case cgroupDestroy =>
      cases h
      split_ifs
      · exact replyFields_error (replyText_ofList rfl)
      · exact replyFields_error (replyText_ofList rfl)
      · exact replyFields_nil
    case check =>
      cases h
      split_ifs
      · exact replyFields_nil
      · exact replyFields_error (replyText_ofList rfl)
    case cpuTopo spec =>
      obtain ⟨⟨_ | msg, t'⟩, ht, rfl⟩ := Option.map_eq_some_iff.mp h
      · exact replyFields_nil
      · exact replyFields_error (kstepTopoSet_error ht)
    case cgroupCreate => cases h; exact replyErrno_fields _
    case cgroupWeight => cases h; exact replyErrno_fields _
    case cgroupCpus => cases h; exact replyErrno_fields _
    case cgroupAttach => cases h; exact replyErrno_fields _
    all_goals
      cases h
      exact replyFields_nil

/-- A reply never fills the buffer: its timestamp is a 64-bit number. -/
theorem writeRecord_reply {timestamp : ℕ} (h : ReplyFields fields) (ht : timestamp < 2 ^ 64) :
    writeRecord timestamp fields =
      some (text (timestampField timestamp :: fields) ++ ['\n']) := by
  have hdigits : (Nat.toDigits 10 timestamp).length ≤ 20 :=
    (Nat.length_toDigits_le_iff (by decide) (by decide)).mpr (ht.trans (by decide))
  have hkey : "timestamp".toList.length = 9 := by decide
  have hfirst : (fieldText (timestampField timestamp)).length ≤ 32 := by
    have hlen : (fieldText (timestampField timestamp)).length =
        "timestamp".toList.length + (Nat.toDigits 10 timestamp).length + 3 := length_fieldText _
    omega
  have hshort := h.short
  have hfields : (fieldsText (timestampField timestamp :: fields)).length ≤ 143 := by
    rcases fields with _ | ⟨f, fields⟩
    · simp only [fieldsText]
      omega
    · simp only [fieldsText, List.length_append, List.length_cons] at hshort ⊢
      omega
  have hsize : jsonBufSize = 504 := rfl
  rw [writeRecord_eq, jsonAppendBuf, if_neg, List.nil_append]
  simp only [text, List.length_nil, List.length_append, List.length_cons, hsize]
  omega

end KStep
