import KStep.RecordLine
import KStep.Driver

/-!
# The warnings of the rules

A rule that fires formats its sentence straight into a record of 504 bytes, from a scheduler hook
where a record that has no room would bring the kernel down. Whatever the rules have seen, their
sentences have room, and the host reads each as one warning with the rule's name.
-/

namespace KStep.Warns

open FlatJson Output Json RecordBuffer Shm

/-- A conversion of a rule's format with its argument. -/
inductive Arg
  /-- `%d` -/
  | int (v : Int32)
  /-- `%lu` and `%llu` -/
  | unsigned (v : UInt64)
  /-- `%lld` -/
  | signed (v : Int64)
  /-- `%#x`, which the kernel prefixes also at zero -/
  | hex (v : UInt32)

def Arg.text : Arg → List Char
  | .int v => numText v.toInt
  | .unsigned v => numText v.toNat
  | .signed v => numText v.toInt
  | .hex v => '0' :: 'x' :: Nat.toDigits 16 v.toNat

def Arg.width : Arg → ℕ
  | .int _ => 11
  | .unsigned _ | .signed _ => 20
  | .hex _ => 10

abbrev Part := String ⊕ Arg

def Part.text : Part → List Char
  | .inl s => s.toList
  | .inr a => a.text

def Part.width : Part → ℕ
  | .inl s => s.toList.length
  | .inr a => a.width

def Part.plain : Part → Bool
  | .inl s => s.toList.all plainChar
  | .inr _ => true

def sentence (parts : List Part) : List Char := parts.flatMap Part.text

/-- The calls of `kstep_warn` with their arguments, one for each rule. -/
inductive Warn
  | syncWakeup (pid wakerCpu taskCpu : Int32)
  | vruntime (pid taskCpu : Int32) (slice : UInt64) (lag : Int64)
  | pelt (cpu : Int32) (last cur dt floor : UInt64)
  | frozen (pid : Int32) (stateBefore state : UInt32)
  | balance (cpu nrRunning idle : Int32)
  | workConserve (pid taskCpu others idle ticks : Int32)
  | utilDecay (cpu : Int32) (lastCfs curCfs lastRt curRt : Int64)

def Warn.check : Warn → String
  | .syncWakeup .. => "sync_wakeup"
  | .vruntime .. => "vruntime"
  | .pelt .. => "pelt"
  | .frozen .. => "frozen"
  | .balance .. => "balance"
  | .workConserve .. => "work_conserve"
  | .utilDecay .. => "util_decay"

def Warn.parts : Warn → List Part
  | .syncWakeup pid wakerCpu taskCpu =>
      [.inl "sync wakeup of task ", .inr (.int pid), .inl " was owed waker cpu ",
        .inr (.int wakerCpu), .inl ", landed on ", .inr (.int taskCpu)]
  | .vruntime pid taskCpu slice lag =>
      [.inl "task ", .inr (.int pid), .inl " on cpu ", .inr (.int taskCpu), .inl ": slice ",
        .inr (.unsigned slice), .inl ", vruntime ", .inr (.signed lag),
        .inl " from its queue's min"]
  | .pelt cpu last cur dt floor =>
      [.inl "rt+dl util on saturated cpu ", .inr (.int cpu), .inl " fell ", .inr (.unsigned last),
        .inl " -> ", .inr (.unsigned cur), .inl " over ", .inr (.unsigned dt),
        .inl " ns, under the ", .inr (.unsigned floor), .inl " decay floor"]
  | .frozen pid stateBefore state =>
      [.inl "task ", .inr (.int pid), .inl " was a freezable sleeper (state ",
        .inr (.hex stateBefore), .inl ") but freeze_task() left it at ", .inr (.hex state)]
  | .balance cpu nrRunning idle =>
      [.inl "cpu ", .inr (.int cpu), .inl " (", .inr (.int nrRunning),
        .inl " running) balances while cpu ", .inr (.int idle), .inl " in its group is idle"]
  | .workConserve pid taskCpu others idle ticks =>
      [.inl "task ", .inr (.int pid), .inl " queued on cpu ", .inr (.int taskCpu), .inl " behind ",
        .inr (.int others), .inl " others while cpu ", .inr (.int idle),
        .inl " has been idle for ", .inr (.int ticks), .inl " ticks"]
  | .utilDecay cpu lastCfs curCfs lastRt curRt =>
      [.inl "util on cpu ", .inr (.int cpu), .inl " fell in one tick: cfs ",
        .inr (.signed lastCfs), .inl " -> ", .inr (.signed curCfs), .inl ", rt ",
        .inr (.signed lastRt), .inl " -> ", .inr (.signed curRt)]

def Warn.message (w : Warn) : List Char := sentence w.parts

def warnCalls (check : String) (message : List Char) : List RecordBuffer.Call :=
  [.fieldStr (encode "type".toList) (encode "warn".toList),
    .fieldStr (encode "check".toList) (encode check.toList),
    .fieldFmt (encode "message".toList) (encode (quoted message))]

def kstepWarn (buf : Vector UInt8 jsonBufSize) (timestamp : UInt64) (check : String)
    (message : List Char) : Except RecordBuffer.Stop (List UInt8) :=
  writeCalls buf timestamp (warnCalls check message)

theorem plainText_hex (n : ℕ) : PlainText (Nat.toDigits 16 n) := by
  induction n using Nat.strongRecOn with
  | ind n ih =>
      have hdigit : ∀ d < 16, plainChar (Nat.digitChar d) = true := by decide
      rw [Nat.toDigits_eq_if (by decide)]
      split_ifs with hn
      · intro c hc
        rw [List.mem_singleton.mp hc]
        exact hdigit n hn
      · intro c hc
        rcases List.mem_append.mp hc with hc | hc
        · exact ih (n / 16) (by omega) c hc
        · rw [List.mem_singleton.mp hc]
          exact hdigit (n % 16) (by omega)

theorem plainText_arg (a : Arg) : PlainText a.text := by
  cases a with
  | int v => exact numText_plain v.toInt
  | unsigned v => exact numText_plain (v.toNat : ℤ)
  | signed v => exact numText_plain v.toInt
  | hex v =>
      intro c hc
      rcases List.mem_cons.mp hc with rfl | hc
      · decide
      rcases List.mem_cons.mp hc with rfl | hc
      · decide
      · exact plainText_hex v.toNat c hc

theorem length_numText_le {z : ℤ} {w : ℕ} (hw : 0 < w) (hlo : -(10 ^ w : ℕ) < z)
    (hhi : z < (10 ^ (w + 1) : ℕ)) : (numText z).length ≤ w + 1 := by
  rcases z with n | n
  · rw [numText]
    exact (Nat.length_toDigits_le_iff (by decide) (by omega)).mpr
      (Int.ofNat_lt.mp hhi)
  · rw [numText, List.length_cons]
    have hdigits : (Nat.toDigits 10 (n + 1)).length ≤ w :=
      (Nat.length_toDigits_le_iff (by decide) hw).mpr (by omega)
    omega

theorem length_arg_le (a : Arg) : a.text.length ≤ a.width := by
  cases a with
  | int v =>
      have hlo := v.le_toInt
      have hhi := v.toInt_lt
      exact length_numText_le (w := 10) (by decide) (by omega) (by omega)
  | unsigned v =>
      have hhi := v.toNat_lt
      exact length_numText_le (z := (v.toNat : ℤ)) (w := 19) (by decide) (by omega) (by omega)
  | signed v =>
      have hlo := v.le_toInt
      have hhi := v.toInt_lt
      exact length_numText_le (w := 19) (by decide) (by omega) (by omega)
  | hex v =>
      have hhi := v.toNat_lt
      have hdigits : (Nat.toDigits 16 v.toNat).length ≤ 8 :=
        (Nat.length_toDigits_le_iff (by decide) (by decide)).mpr (by omega)
      simp only [Arg.text, Arg.width, List.length_cons]
      omega

theorem length_sentence_le (parts : List Part) :
    (sentence parts).length ≤ (parts.map Part.width).sum := by
  induction parts with
  | nil => exact Nat.le_refl 0
  | cons p parts ih =>
      have hp : (Part.text p).length ≤ Part.width p := by
        cases p with
        | inl s => exact Nat.le_refl _
        | inr a => exact length_arg_le a
      rw [sentence, List.flatMap_cons, List.length_append, List.map_cons, List.sum_cons]
      exact Nat.add_le_add hp ih

theorem plainText_sentence {parts : List Part} (h : parts.all Part.plain = true) :
    PlainText (sentence parts) := by
  intro c hc
  obtain ⟨p, hp, hc⟩ := List.mem_flatMap.mp hc
  cases p with
  | inl s => exact List.all_eq_true.mp (List.all_eq_true.mp h _ hp) c hc
  | inr a => exact plainText_arg a c hc

theorem plainText_message (w : Warn) : PlainText w.message := by
  refine plainText_sentence ?_
  cases w <;> rfl

theorem length_message_le (w : Warn) : w.message.length ≤ 180 := by
  refine (length_sentence_le w.parts).trans ?_
  cases w <;> exact Nat.le_of_ble_eq_true rfl

/-- The rules warn under the names `check` takes. -/
theorem check_mem (w : Warn) : w.check ∈ checks := by
  cases w <;> simp [Warn.check, checks]

theorem checks_short : ∀ check ∈ checks, PlainText check.toList ∧ check.toList.length ≤ 13 := by
  decide

theorem literal_of_plainText {s : List Char} (h : PlainText s) : Literal s := by
  intro c hc
  have hplain := h c hc
  simp only [plainChar, Bool.and_eq_true, decide_eq_true_eq] at hplain
  simp only [literal, Bool.and_eq_true, decide_eq_true_eq]
  exact ⟨⟨hplain.1.1.1, hplain.1.2⟩, hplain.2⟩

theorem length_memberText (m : List Char × List Char) :
    (memberText m).length = m.1.length + m.2.length + 3 := by
  simp only [memberText, quoted, List.length_append, List.length_cons, List.length_nil]
  omega

theorem length_quoted (s : List Char) : (quoted s).length = s.length + 2 := by
  simp only [quoted, List.length_cons, List.length_append, List.length_nil]

/-- The bytes of a record are those of its members, with a mark after each and a brace before. -/
theorem length_objectText (m : List Char × List Char) (l : List (List Char × List Char)) :
    (objectText (m :: l)).length = ((m :: l).map fun m => m.1.length + m.2.length + 4).sum + 1 := by
  rw [objectText, List.length_cons, List.length_append, List.length_singleton]
  congr 1
  induction l generalizing m with
  | nil => simp [commaJoin, length_memberText]
  | cons m' l ih =>
      have hjoin : commaJoin ',' ((m :: m' :: l).map memberText) =
          memberText m ++ ',' :: commaJoin ',' ((m' :: l).map memberText) := rfl
      have hrest := ih m'
      have hm := length_memberText m
      have hsum : (((m :: m' :: l).map fun m => m.1.length + m.2.length + 4).sum) =
          (m.1.length + m.2.length + 4) +
            ((m' :: l).map fun m => m.1.length + m.2.length + 4).sum := rfl
      rw [hjoin, List.length_append, List.length_cons, hsum]
      omega

/-- The text of a warning's record. -/
theorem recordText_warn (timestamp : UInt64) (check : String) (message : List Char) :
    recordText timestamp (warnCalls check message) =
      objectText [timestampText timestamp, ("type".toList, quoted "warn".toList),
        ("check".toList, quoted check.toList), ("message".toList, quoted message)] ++ ['\n'] := by
  simp only [recordText, memberTexts, warnCalls, List.map_cons, List.map_nil, Call.keyChars,
    Call.key, Call.chars, fromUtf8Lossy_encode]

theorem length_recordText (timestamp : UInt64) (check : String) (message : List Char) :
    (recordText timestamp (warnCalls check message)).length =
      (numText timestamp.toNat).length + check.toList.length + message.length + 53 := by
  rw [recordText_warn, List.length_append, length_objectText]
  change (9 + (numText timestamp.toNat).length + 4) + ((4 + 6 + 4) +
    ((5 + (quoted check.toList).length + 4) + ((7 + (quoted message).length + 4) + 0))) + 1 + 1 = _
  rw [length_quoted, length_quoted]
  omega

def warnFields (timestamp : UInt64) (w : Warn) : List (List Char × Json.Value) :=
  [("timestamp".toList, .num timestamp.toNat 0), ("type".toList, .str "warn".toList),
    ("check".toList, .str w.check.toList), ("message".toList, .str w.message)]

def Warn.event (w : Warn) : Driver.Event :=
  .warn ⟨w.check.toList, (checks_short _ (check_mem w)).1⟩ ⟨w.message, plainText_message w⟩

theorem plainBytes_encode {s : List Char} (h : PlainText s) : PlainBytes (encode s) :=
  ⟨s, rfl, literal_of_plainText h⟩

theorem plain_warnCalls (w : Warn) : ∀ call ∈ warnCalls w.check w.message, call.Plain := by
  have hmessage := read_quoted (literal_of_plainText (plainText_message w))
  intro call hcall
  simp only [warnCalls, List.mem_cons, List.not_mem_nil, or_false] at hcall
  rcases hcall with rfl | rfl | rfl
  · exact ⟨plainBytes_encode (by decide), plainBytes_encode (by decide)⟩
  · exact ⟨plainBytes_encode (by decide), plainBytes_encode (checks_short _ (check_mem w)).1⟩
  · exact ⟨plainBytes_encode (by decide), _, rfl, by rw [hmessage]; rfl⟩

def Ascii (s : List Char) : Prop := ∀ c ∈ s, c.toNat < 128

theorem ascii_of_plainText {s : List Char} (h : PlainText s) : Ascii s := by
  intro c hc
  have hplain := h c hc
  simp only [plainChar, Bool.and_eq_true, decide_eq_true_eq] at hplain
  omega

theorem ascii_quoted {s : List Char} (h : Ascii s) : Ascii (quoted s) := by
  simp only [Ascii, quoted, List.forall_mem_cons, List.forall_mem_append]
  exact ⟨by decide, h, by decide, List.forall_mem_nil _⟩

theorem ascii_memberText {m : List Char × List Char} (hkey : Ascii m.1) (hvalue : Ascii m.2) :
    Ascii (memberText m) := by
  simp only [Ascii, memberText, List.forall_mem_cons, List.forall_mem_append]
  exact ⟨ascii_quoted hkey, by decide, hvalue⟩

/-- The record of a warning is ASCII. -/
theorem ascii_recordText (timestamp : UInt64) (w : Warn) :
    Ascii (recordText timestamp (warnCalls w.check w.message)) := by
  have hkey : PlainText "timestamp".toList := by decide
  have htime := ascii_memberText (m := timestampText timestamp) (ascii_of_plainText hkey)
    (ascii_of_plainText (numText_plain (timestamp.toNat : ℤ)))
  have hstring (key : List Char) {s : List Char} (hkey : PlainText key) (hs : PlainText s) :
      Ascii (memberText (key, quoted s)) :=
    ascii_memberText (ascii_of_plainText hkey) (ascii_quoted (ascii_of_plainText hs))
  have htype := hstring "type".toList (s := "warn".toList) (by decide) (by decide)
  have hcheck := hstring "check".toList (by decide) (checks_short _ (check_mem w)).1
  have hmessage := hstring "message".toList (by decide) (plainText_message w)
  rw [recordText_warn]
  simp only [Ascii, objectText, commaJoin, List.map_cons, List.map_nil, List.forall_mem_append,
    List.forall_mem_cons]
  exact ⟨⟨by decide, ⟨htime, by decide, htype, by decide, hcheck, by decide, hmessage⟩, by decide,
    List.forall_mem_nil _⟩, by decide, List.forall_mem_nil _⟩

/-- A rule's warning is always sent, as one line that holds the rule's name and its sentence: the
record of the driver's event. -/
theorem warn_sent (buf : Vector UInt8 jsonBufSize) (timestamp : UInt64) (w : Warn) :
    ∃ line, kstepWarn buf timestamp w.check w.message = .ok (encode line ++ [10]) ∧
      '\n' ∉ line ∧ Json.read line = some (.obj (warnFields timestamp w)) ∧
      writeRecord timestamp.toNat w.event.fields = some (line ++ ['\n']) := by
  have hplain := plain_warnCalls w
  have htime : (numText timestamp.toNat).length ≤ 20 := length_arg_le (.unsigned timestamp)
  have hfits : (recordText timestamp (warnCalls w.check w.message)).length < jsonBufSize := by
    have hmessage := length_message_le w
    have hcheck := (checks_short _ (check_mem w)).2
    rw [length_recordText]
    change _ < 504
    omega
  have hbytes : (recordBytes timestamp (warnCalls w.check w.message)).length < jsonBufSize := by
    rw [recordBytes_eq timestamp hplain, length_encode_ascii (ascii_recordText timestamp w)]
    exact hfits
  refine ⟨objectText (memberTexts timestamp (warnCalls w.check w.message)), ?_, ?_, ?_, ?_⟩
  · rcases writeCalls_cases buf timestamp (warnCalls w.check w.message) with ⟨-, hsent⟩ | ⟨hfull, -⟩
    · rw [kstepWarn, hsent, recordBytes_eq timestamp hplain, recordText, encode_append]
      rfl
    · omega
  · rw [newline_mem_members timestamp hplain]
    rintro ⟨key, text, hcall, hline⟩
    simp only [warnCalls, List.mem_cons, List.not_mem_nil, or_false, reduceCtorEq, false_or] at hcall
    cases hcall
    have hnone := newline_not_mem (literal_of_plainText (plainText_message w))
    rw [newline_mem_encode, quoted, List.mem_cons, List.mem_append, List.mem_singleton] at hline
    rcases hline with hline | hline | hline
    · cases hline
    · exact hnone hline
    · cases hline
  · have hmessage := read_quoted (literal_of_plainText (plainText_message w))
    have hread := read_members timestamp hplain
    simp only [fields, warnCalls, List.map_cons, List.map_nil, Call.keyChars, Call.key, Call.value,
      fromUtf8Lossy_encode, hmessage, Option.getD_some] at hread
    exact hread
  · have htext : text (timestampField timestamp.toNat :: w.event.fields) ++ ['\n'] =
        recordText timestamp (warnCalls w.check w.message) := by
      rw [recordText_warn]
      rfl
    rw [writeRecord_eq, htext, jsonAppendBuf, if_neg]
    · rfl
    · rw [List.length_nil, Nat.zero_add]
      omega

end KStep.Warns
