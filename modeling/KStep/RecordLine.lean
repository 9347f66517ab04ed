import KStep.RecordBuffer

/-!
# Records read back

A record is one line: an object whose members are the time and the fields, in the order of their
calls. It reads back as those values when its keys and strings are plain UTF-8 and its formats make
JSON.
-/

namespace KStep.RecordBuffer

open FlatJson Output Json Shm

/-- The UTF-8 of characters that stand for themselves in JSON. -/
def PlainBytes (s : List UInt8) : Prop := ∃ text, s = encode text ∧ Literal text

/-- Keys and strings are plain, and a format makes a value. -/
def Call.Plain : Call → Prop
  | .fieldStr key val => PlainBytes key ∧ PlainBytes val
  | .fieldU64 key _ | .fieldS64 key _ | .fieldBool key _ => PlainBytes key
  | .fieldFmt key text => PlainBytes key ∧ ∃ t, text = encode t ∧ (Json.read t).isSome = true

def Call.chars : Call → List Char
  | .fieldStr _ val => quoted (fromUtf8Lossy val)
  | .fieldU64 _ val => numText val.toNat
  | .fieldS64 _ val => numText val.toInt
  | .fieldBool _ val => (if val then "true" else "false").toList
  | .fieldFmt _ text => fromUtf8Lossy text

def Call.keyChars (call : Call) : List Char := fromUtf8Lossy call.key

/-- The value a call gives; that of a format is the one its text is read as. -/
def Call.value : Call → Json.Value
  | .fieldStr _ val => .str (fromUtf8Lossy val)
  | .fieldU64 _ val => .num val.toNat 0
  | .fieldS64 _ val => .num val.toInt 0
  | .fieldBool _ val => .bool val
  | .fieldFmt _ text => (Json.read (fromUtf8Lossy text)).getD .null

def fields (timestamp : UInt64) (calls : List Call) : List (List Char × Json.Value) :=
  ("timestamp".toList, .num timestamp.toNat 0) ::
    calls.map fun call => (call.keyChars, call.value)

def timestampText (timestamp : UInt64) : List Char × List Char :=
  ("timestamp".toList, numText timestamp.toNat)

def memberTexts (timestamp : UInt64) (calls : List Call) : List (List Char × List Char) :=
  timestampText timestamp :: calls.map fun call => (call.keyChars, call.chars)

def recordText (timestamp : UInt64) (calls : List Call) : List Char :=
  objectText (memberTexts timestamp calls) ++ ['\n']

variable {call : Call} {calls : List Call} {s : List UInt8}

theorem PlainBytes.encode_eq (h : PlainBytes s) : s = encode (fromUtf8Lossy s) := by
  obtain ⟨text, rfl, -⟩ := h
  rw [fromUtf8Lossy_encode]

theorem PlainBytes.literal (h : PlainBytes s) : Literal (fromUtf8Lossy s) := by
  obtain ⟨text, rfl, hliteral⟩ := h
  rw [fromUtf8Lossy_encode]
  exact hliteral

theorem Call.Plain.key (h : call.Plain) : PlainBytes call.key := by
  cases call with
  | fieldStr key val => exact h.1
  | fieldU64 key val => exact h
  | fieldS64 key val => exact h
  | fieldBool key val => exact h
  | fieldFmt key text => exact h.1

theorem encode_quoted (s : List Char) : encode (quoted s) = quotedBytes (encode s) := by
  have hcons : quoted s = ['"'] ++ s ++ ['"'] := by simp [quoted]
  rw [hcons, encode_append, encode_append]
  rfl

theorem encode_memberText (m : List Char × List Char) :
    encode (memberText m) = memberBytes (encode m.1, encode m.2) := by
  have hcolon : ':' :: m.2 = [':'] ++ m.2 := rfl
  rw [memberText, hcolon, encode_append, encode_append, encode_quoted]
  rfl

theorem encode_commaJoin (l : List (List Char)) :
    encode (commaJoin ',' l) = commaJoin ','.toUInt8 (l.map encode) := by
  induction l with
  | nil => rfl
  | cons s l ih =>
      cases l with
      | nil => rfl
      | cons s' l =>
          have hjoin : commaJoin ',' (s :: s' :: l) = s ++ ([','] ++ commaJoin ',' (s' :: l)) := rfl
          rw [hjoin, encode_append, encode_append, ih]
          rfl

/-- A plain call's member is the UTF-8 of its text. -/
theorem Call.Plain.member_eq (h : call.Plain) :
    call.member = (encode call.keyChars, encode call.chars) := by
  refine Prod.ext h.key.encode_eq ?_
  cases call with
  | fieldStr key val =>
      change quotedBytes val = encode (quoted (fromUtf8Lossy val))
      rw [encode_quoted, ← h.2.encode_eq]
  | fieldU64 key val => rfl
  | fieldS64 key val => rfl
  | fieldBool key val => rfl
  | fieldFmt key text =>
      obtain ⟨t, rfl, -⟩ := h.2
      change encode t = encode (fromUtf8Lossy (encode t))
      rw [fromUtf8Lossy_encode]

/-- The record of plain calls is the UTF-8 of its text. -/
theorem recordBytes_eq (timestamp : UInt64) (h : ∀ call ∈ calls, call.Plain) :
    recordBytes timestamp calls = encode (recordText timestamp calls) := by
  have hmembers : (members timestamp calls).map memberBytes =
      ((memberTexts timestamp calls).map memberText).map encode := by
    rw [members, memberTexts, List.map_cons, List.map_cons, List.map_cons, encode_memberText,
      List.map_map, List.map_map, List.map_map]
    refine congrArg _ (List.map_congr_left fun call hcall => ?_)
    simp only [Function.comp_apply, encode_memberText, (h call hcall).member_eq]
  have hobject : recordText timestamp calls =
      ['{'] ++ (commaJoin ',' ((memberTexts timestamp calls).map memberText) ++ ['}', '\n']) := by
    simp [recordText, objectText]
  rw [hobject, encode_append, encode_append, encode_commaJoin, ← hmembers]
  rfl

theorem Call.Plain.reads (h : call.Plain) :
    Reads (call.keyChars, call.chars) (call.keyChars, call.value) := by
  refine ⟨h.key.literal, rfl, ?_⟩
  cases call with
  | fieldStr key val => exact read_quoted h.2.literal
  | fieldU64 key val => exact read_numText (val.toNat : ℤ)
  | fieldS64 key val => exact read_numText val.toInt
  | fieldBool key val => exact read_bool val
  | fieldFmt key text =>
      obtain ⟨t, rfl, hsome⟩ := h.2
      obtain ⟨v, hv⟩ := Option.isSome_iff_exists.mp hsome
      change Json.read (fromUtf8Lossy (encode t)) =
        some ((Json.read (fromUtf8Lossy (encode t))).getD .null)
      rw [fromUtf8Lossy_encode, hv]
      rfl

theorem literal_timestamp : Literal "timestamp".toList := by decide

theorem read_members (timestamp : UInt64) (h : ∀ call ∈ calls, call.Plain) :
    Json.read (objectText (memberTexts timestamp calls)) =
      some (.obj (fields timestamp calls)) := by
  refine read_objectText (List.cons_ne_nil _ _) (.cons ?_ ?_)
  · exact ⟨literal_timestamp, rfl, read_numText (timestamp.toNat : ℤ)⟩
  · rw [List.forall₂_map_left_iff, List.forall₂_map_right_iff, List.forall₂_same]
    exact fun call hcall => (h call hcall).reads

theorem mem_commaJoin {c : Char} {l : List (List Char)} (hc : c ≠ ',') :
    c ∈ commaJoin ',' l ↔ ∃ s ∈ l, c ∈ s := by
  induction l with
  | nil => simp [commaJoin]
  | cons s l ih =>
      cases l with
      | nil => simp [commaJoin]
      | cons s' l => simp only [commaJoin, List.mem_append, List.mem_cons, ih, hc, false_or,
          exists_eq_or_imp]

theorem newline_not_mem {s : List Char} (h : Literal s) : '\n' ∉ s := by
  intro hmem
  have hliteral := h _ hmem
  contradiction

theorem newline_not_mem_num (z : ℤ) : '\n' ∉ numText z := by
  intro hmem
  have hplain := numText_plain z _ hmem
  contradiction

/-- A line end is no part of another character. -/
theorem newline_mem_encode (text : List Char) : 10 ∈ encode text ↔ '\n' ∈ text := by
  induction text with
  | nil => exact iff_of_false List.not_mem_nil List.not_mem_nil
  | cons c text ih =>
      have hcons : encode (c :: text) = String.utf8EncodeChar c ++ encode text := rfl
      rw [hcons, List.mem_append, List.mem_cons, ih]
      refine or_congr_left ?_
      rcases Nat.lt_or_ge c.toNat 128 with hc | hc
      · rw [encodeChar_ascii hc, List.mem_singleton, ← UInt8.toNat_inj, toNat_byte (by omega),
          Char.ext_iff, ← UInt32.toNat_inj]
        rfl
      · refine iff_of_false (fun hmem => ?_) (fun heq => ?_)
        · have hhigh := encodeChar_high hc _ hmem
          exact absurd hhigh (by decide)
        · rw [← heq] at hc
          exact absurd hc (by decide)

/-- Only a format can put a line end into a record. -/
theorem newline_mem_chars (h : call.Plain) :
    '\n' ∈ call.chars ↔ ∃ key text, call = .fieldFmt key text ∧ 10 ∈ text := by
  cases call with
  | fieldStr key val => simp [Call.chars, quoted, newline_not_mem h.2.literal]
  | fieldU64 key val => simp [Call.chars, newline_not_mem_num]
  | fieldS64 key val => simp [Call.chars, newline_not_mem_num]
  | fieldBool key val => cases val <;> simp [Call.chars]
  | fieldFmt key text =>
      obtain ⟨t, rfl, -⟩ := h.2
      simp [Call.chars, fromUtf8Lossy_encode, newline_mem_encode]

theorem newline_mem_memberText {m : List Char × List Char} (h : Literal m.1) :
    '\n' ∈ memberText m ↔ '\n' ∈ m.2 := by
  simp [memberText, quoted, newline_not_mem h]

theorem newline_mem_members (timestamp : UInt64) (h : ∀ call ∈ calls, call.Plain) :
    '\n' ∈ objectText (memberTexts timestamp calls) ↔
      ∃ key text, Call.fieldFmt key text ∈ calls ∧ 10 ∈ text := by
  have htime : '\n' ∉ memberText (timestampText timestamp) := by
    rw [newline_mem_memberText literal_timestamp]
    exact newline_not_mem_num (timestamp.toNat : ℤ)
  have hcall (call : Call) (hcall : call ∈ calls) :
      '\n' ∈ memberText (call.keyChars, call.chars) ↔
        ∃ key text, call = .fieldFmt key text ∧ 10 ∈ text := by
    rw [newline_mem_memberText (h call hcall).key.literal]
    exact newline_mem_chars (h call hcall)
  have hbraces : '\n' ∈ objectText (memberTexts timestamp calls) ↔
      ∃ call ∈ calls, '\n' ∈ memberText (call.keyChars, call.chars) := by
    simp [objectText, mem_commaJoin, memberTexts, htime]
  rw [hbraces]
  constructor
  · rintro ⟨call, hmem, hline⟩
    obtain ⟨key, text, rfl, htext⟩ := (hcall call hmem).mp hline
    exact ⟨key, text, hmem, htext⟩
  · rintro ⟨key, text, hmem, htext⟩
    exact ⟨_, hmem, (hcall _ hmem).mpr ⟨key, text, rfl, htext⟩⟩

/-- A record is sent as the UTF-8 of one object on its line, whose members are the time and the
fields of the calls; or it would not be shorter than the buffer, and only then does the writer
panic. No store leaves the buffer, and every record fits the channel's. -/
theorem writeCalls_reads (buf : Vector UInt8 jsonBufSize) (timestamp : UInt64) (calls : List Call)
    (h : ∀ call ∈ calls, call.Plain) :
    (∀ sent, writeCalls buf timestamp calls = .ok sent →
      sent = recordBytes timestamp calls ∧ sent.length < jsonBufSize ∧ sent.length ≤ txBuf ∧
        ∃ line, sent = encode line ++ [10] ∧
          Json.read line = some (.obj (fields timestamp calls)) ∧
          ('\n' ∈ line ↔ ∃ key text, Call.fieldFmt key text ∈ calls ∧ 10 ∈ text)) ∧
    (∀ done, done <+: calls → ∀ json,
      (kstepJsonBegin buf timestamp >>= fun json => done.foldlM Call.run json) = .ok json →
        json.len < jsonBufSize) ∧
    writeCalls buf timestamp calls ≠ .error .fault ∧
    writeCalls buf timestamp calls ≠ .error .recordTooLong ∧
    (writeCalls buf timestamp calls = .error .overflow ∨
        writeCalls buf timestamp calls = .error .formatting ↔
      jsonBufSize ≤ (recordBytes timestamp calls).length) := by
  have hsizes : jsonBufSize ≤ txBuf := by decide
  refine ⟨fun sent hsent => ?_, fun done _ json hrun => ?_, fun hfault => ?_, fun hlong => ?_,
    writeCalls_panics_iff buf timestamp calls⟩
  · obtain ⟨rfl, hfits⟩ := writeCalls_sent hsent
    refine ⟨rfl, hfits, by omega, objectText (memberTexts timestamp calls), ?_,
      read_members timestamp h, newline_mem_members timestamp h⟩
    rw [recordBytes_eq timestamp h, recordText, encode_append]
    rfl
  · have hagrees := fields_agrees buf timestamp done
    rw [hrun] at hagrees
    exact hagrees.len_lt
  · have hstop := (writeCalls_stop hfault).1
    contradiction
  · have hstop := (writeCalls_stop hlong).1
    contradiction

def passCalls : List Call :=
  [.fieldStr (encode "status".toList) (encode "pass".toList),
    .fieldFmt (encode "lat_µs".toList) (encode "1.500".toList),
    .fieldS64 (encode "delta".toList) (-3), .fieldBool (encode "idle".toList) true]

def passFields : List (List Char × Json.Value) :=
  [("timestamp".toList, .num 7 0), ("status".toList, .str "pass".toList),
    ("lat_µs".toList, .num 1500 (-3)), ("delta".toList, .num (-3) 0), ("idle".toList, .bool true)]

theorem writeCalls_reads_pass :
    (∀ call ∈ passCalls, call.Plain) ∧ ∃ line : List Char,
      writeCalls (Vector.replicate jsonBufSize 32) 7 passCalls = .ok (encode line ++ [10]) ∧
        Json.read line = some (.obj passFields) ∧ '\n' ∉ line := by
  have hplain : ∀ call ∈ passCalls, call.Plain := by
    have hword (s : List Char) (hs : Literal s) : PlainBytes (encode s) := ⟨s, rfl, hs⟩
    intro call hcall
    simp only [passCalls, List.mem_cons, List.not_mem_nil, or_false] at hcall
    rcases hcall with rfl | rfl | rfl | rfl
    · exact ⟨hword _ (by decide), hword _ (by decide)⟩
    · exact ⟨hword _ (by decide), "1.500".toList, rfl, by decide⟩
    · exact hword _ (by decide)
    · exact hword _ (by decide)
  obtain ⟨hread, -⟩ := writeCalls_reads (Vector.replicate jsonBufSize 32) 7 passCalls hplain
  have hfields : fields 7 passCalls = passFields := by
    simp only [fields, passCalls, passFields, Call.keyChars, Call.key, Call.value, List.map_cons,
      List.map_nil, fromUtf8Lossy_encode]
    rfl
  rw [hfields] at hread
  rcases writeCalls_cases (Vector.replicate jsonBufSize 32) 7 passCalls with
    ⟨-, hsent⟩ | ⟨hfull, -⟩
  · obtain ⟨-, -, -, line, hline, hvalue, hnewline⟩ := hread _ hsent
    refine ⟨hplain, line, hline ▸ hsent, hvalue, ?_⟩
    rw [hnewline]
    rintro ⟨key, text, hmem, htext⟩
    obtain ⟨-, rfl⟩ : key = encode "lat_µs".toList ∧ text = encode "1.500".toList := by
      simpa [passCalls] using hmem
    revert htext
    decide
  · exact absurd hfull (by decide)

end KStep.RecordBuffer
