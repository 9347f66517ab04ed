import KStep.Records
import KStep.JsonText
import KStep.TxPool
import KStep.LossyText

/-!
# Records in their buffer

The writer of records as it stores bytes into `buf`: every store is checked to be inside the buffer
and every new length to be below its size. Each call is shown to append its bytes to those in use, or
to panic where they have no room, and never to leave the buffer.
-/

namespace KStep.RecordBuffer

open FlatJson Output Shm

structure KstepJson where
  len : ℕ
  buf : Vector UInt8 jsonBufSize

inductive Stop
  /-- `json buffer overflow` -/
  | overflow
  /-- `json formatting failed` -/
  | formatting
  /-- `record of %zu bytes exceeds the channel buffer` -/
  | recordTooLong
  /-- a store outside the buffer, or a length that is not below its size -/
  | fault
  deriving DecidableEq, Repr

/-- The bytes go into the buffer from `i` on. -/
def memcpy (buf : Vector UInt8 jsonBufSize) (i : ℕ) :
    List UInt8 → Except Stop (Vector UInt8 jsonBufSize)
  | [] => .ok buf
  | c :: s => if h : i < jsonBufSize then memcpy (buf.set i c) (i + 1) s else .error .fault

def setLen (buf : Vector UInt8 jsonBufSize) (len : ℕ) : Except Stop KstepJson :=
  if len < jsonBufSize then .ok ⟨len, buf⟩ else .error .fault

def kstepJsonAppendChar (json : KstepJson) (c : UInt8) : Except Stop KstepJson :=
  if jsonBufSize ≤ json.len + 1 then .error .overflow
  else do
    let buf ← memcpy json.buf json.len [c]
    setLen buf (json.len + 1)

def kstepJsonAppendBuf (json : KstepJson) (s : List UInt8) : Except Stop KstepJson :=
  if jsonBufSize ≤ json.len + s.length then .error .overflow
  else do
    let buf ← memcpy json.buf json.len s
    setLen buf (json.len + s.length)

def kstepJsonAppendStr (json : KstepJson) (str : List UInt8) : Except Stop KstepJson := do
  let json ← kstepJsonAppendChar json '"'.toUInt8
  let json ← kstepJsonAppendBuf json str
  kstepJsonAppendChar json '"'.toUInt8

/-- As many of the bytes as `size` holds before a NUL. -/
def vsnprintf (buf : Vector UInt8 jsonBufSize) (i size : ℕ) (text : List UInt8) :
    Except Stop (Vector UInt8 jsonBufSize) :=
  if size = 0 then .ok buf else memcpy buf i (text.take (size - 1) ++ [0])

/-- The format and its arguments are given by the bytes they make. -/
def kstepJsonFieldFmt (json : KstepJson) (key text : List UInt8) : Except Stop KstepJson := do
  let json ← kstepJsonAppendStr json key
  let json ← kstepJsonAppendChar json ':'.toUInt8
  let rem := jsonBufSize - json.len
  let buf ← vsnprintf json.buf json.len rem text
  if rem ≤ text.length then .error .formatting
  else
    let json ← setLen buf (json.len + text.length)
    kstepJsonAppendChar json ','.toUInt8

def kstepJsonFieldStr (json : KstepJson) (key val : List UInt8) : Except Stop KstepJson := do
  let json ← kstepJsonAppendStr json key
  let json ← kstepJsonAppendChar json ':'.toUInt8
  let json ← kstepJsonAppendStr json val
  kstepJsonAppendChar json ','.toUInt8

def kstepJsonFieldU64 (json : KstepJson) (key : List UInt8) (val : UInt64) : Except Stop KstepJson :=
  kstepJsonFieldFmt json key (encode (numText val.toNat))

def kstepJsonFieldS64 (json : KstepJson) (key : List UInt8) (val : Int64) : Except Stop KstepJson :=
  kstepJsonFieldFmt json key (encode (numText val.toInt))

def kstepJsonFieldBool (json : KstepJson) (key : List UInt8) (val : Bool) : Except Stop KstepJson :=
  kstepJsonFieldFmt json key (encode (if val then "true" else "false").toList)

def kstepJsonBegin (buf : Vector UInt8 jsonBufSize) (timestamp : UInt64) :
    Except Stop KstepJson := do
  let json ← kstepJsonAppendChar ⟨0, buf⟩ '{'.toUInt8
  kstepJsonFieldU64 json (encode "timestamp".toList) timestamp

def kstepIoWrite (data : Vector UInt8 jsonBufSize) (len : ℕ) : Except Stop (List UInt8) :=
  if txBuf < len then .error .recordTooLong else .ok (data.toList.take len)

def kstepJsonEnd (json : KstepJson) : Except Stop (List UInt8) := do
  let len :=
    if 0 < json.len ∧ json.buf.toList[json.len - 1]? = some ','.toUInt8 then json.len - 1 else json.len
  let json ← kstepJsonAppendChar ⟨len, json.buf⟩ '}'.toUInt8
  let json ← kstepJsonAppendChar json '\n'.toUInt8
  kstepIoWrite json.buf json.len

inductive Call
  | fieldStr (key val : List UInt8)
  | fieldU64 (key : List UInt8) (val : UInt64)
  | fieldS64 (key : List UInt8) (val : Int64)
  | fieldBool (key : List UInt8) (val : Bool)
  | fieldFmt (key text : List UInt8)

def Call.run (json : KstepJson) : Call → Except Stop KstepJson
  | .fieldStr key val => kstepJsonFieldStr json key val
  | .fieldU64 key val => kstepJsonFieldU64 json key val
  | .fieldS64 key val => kstepJsonFieldS64 json key val
  | .fieldBool key val => kstepJsonFieldBool json key val
  | .fieldFmt key text => kstepJsonFieldFmt json key text

def writeCalls (buf : Vector UInt8 jsonBufSize) (timestamp : UInt64) (calls : List Call) :
    Except Stop (List UInt8) := do
  let json ← kstepJsonBegin buf timestamp
  let json ← calls.foldlM Call.run json
  kstepJsonEnd json

def KstepJson.content (json : KstepJson) : List UInt8 := json.buf.toList.take json.len

/-- The call has done what it does to the bytes in use, or it has panicked where they have no
room. -/
inductive Agrees : Except Stop KstepJson → Option (List UInt8) → Prop
  | ok {json : KstepJson} (h : json.len < jsonBufSize) : Agrees (.ok json) (some json.content)
  | overflow : Agrees (.error .overflow) none
  | formatting : Agrees (.error .formatting) none

variable {json : KstepJson} {buf : Vector UInt8 jsonBufSize} {s : List UInt8} {i : ℕ}

theorem length_content (h : json.len < jsonBufSize) : json.content.length = json.len := by
  rw [KstepJson.content, List.length_take, Vector.length_toList]
  omega

theorem Agrees.len_lt {o : Option (List UInt8)} (h : Agrees (.ok json) o) :
    json.len < jsonBufSize := by
  cases h with
  | ok hlen => exact hlen

theorem take_set (buf : Vector UInt8 jsonBufSize) (c : UInt8) (hi : i < jsonBufSize) :
    (buf.set i c).toList.take (i + 1) = buf.toList.take i ++ [c] := by
  have hlen : (buf.toList.take i ++ [c]).length = i + 1 := by
    rw [List.length_append, List.length_take, Vector.length_toList, Nat.min_eq_left hi.le]
    rfl
  have hparts : buf.toList.set i c = (buf.toList.take i ++ [c]) ++ buf.toList.drop (i + 1) := by
    rw [List.set_eq_take_append_cons_drop, if_pos (by rw [Vector.length_toList]; exact hi),
      List.append_assoc, List.singleton_append]
  rw [Vector.toList_set, hparts, ← hlen, List.take_left]

/-- Bytes that have room are all stored, behind what was there. -/
theorem memcpy_ok (buf : Vector UInt8 jsonBufSize) (h : i + s.length ≤ jsonBufSize) :
    ∃ buf', memcpy buf i s = .ok buf' ∧
      buf'.toList.take (i + s.length) = buf.toList.take i ++ s := by
  induction s generalizing buf i with
  | nil => exact ⟨buf, rfl, by simp⟩
  | cons c s ih =>
      rw [List.length_cons] at h
      have hi : i < jsonBufSize := by omega
      obtain ⟨buf', hcopy, htake⟩ := ih (i := i + 1) (buf.set i c) (by omega)
      refine ⟨buf', by rw [memcpy, dif_pos hi]; exact hcopy, ?_⟩
      have hlast : i + (s.length + 1) = i + 1 + s.length := by omega
      rw [List.length_cons, hlast, htake, take_set buf c hi, List.append_assoc,
        List.singleton_append]

/-- The calls one after another. -/
theorem Agrees.bind {r : Except Stop KstepJson} {o : Option (List UInt8)}
    {f : KstepJson → Except Stop KstepJson} {g : List UInt8 → Option (List UInt8)} (h : Agrees r o)
    (hf : ∀ json, json.len < jsonBufSize → Agrees (f json) (g json.content)) :
    Agrees (r >>= f) (o >>= g) := by
  cases h with
  | ok hlen => exact hf _ hlen
  | overflow => exact .overflow
  | formatting => exact .formatting

/-- Bytes that have room are stored and in use. -/
theorem agrees_stored {text : List UInt8} (hlen : json.len + text.length < jsonBufSize)
    (htake : buf.toList.take (json.len + text.length) = json.content ++ text) :
    Agrees (setLen buf (json.len + text.length)) (some (json.content ++ text)) := by
  rw [setLen, if_pos hlen, ← htake]
  exact .ok hlen

theorem appendBuf_agrees (h : json.len < jsonBufSize) (s : List UInt8) :
    Agrees (kstepJsonAppendBuf json s) (jsonAppendBuf s json.content) := by
  rw [kstepJsonAppendBuf, jsonAppendBuf, length_content h]
  split_ifs with hfull
  · exact .overflow
  · obtain ⟨buf', hcopy, htake⟩ := memcpy_ok json.buf (Nat.lt_of_not_le hfull).le
    rw [hcopy]
    exact agrees_stored (by omega) htake

theorem appendChar_agrees (h : json.len < jsonBufSize) (c : UInt8) :
    Agrees (kstepJsonAppendChar json c) (jsonAppendBuf [c] json.content) :=
  appendBuf_agrees h [c]

def quotedBytes (s : List UInt8) : List UInt8 := '"'.toUInt8 :: (s ++ ['"'.toUInt8])

theorem appendStr_agrees (h : json.len < jsonBufSize) (str : List UInt8) :
    Agrees (kstepJsonAppendStr json str) (jsonAppendBuf (quotedBytes str) json.content) := by
  have hstr : Agrees (kstepJsonAppendStr json str) (jsonAppendBuf ['"'.toUInt8] json.content >>=
      fun s => jsonAppendBuf str s >>= jsonAppendBuf ['"'.toUInt8]) :=
    (appendChar_agrees h '"'.toUInt8).bind fun _ h =>
      (appendBuf_agrees h str).bind fun _ h => appendChar_agrees h '"'.toUInt8
  simp only [jsonAppendBuf_bind] at hstr
  exact hstr

/-- `vsnprintf` stays in the room it is given, and has stored the text when that is enough. -/
theorem vsnprintf_ok (h : json.len < jsonBufSize) (text : List UInt8) :
    ∃ buf', vsnprintf json.buf json.len (jsonBufSize - json.len) text = .ok buf' ∧
      (json.len + text.length < jsonBufSize →
        buf'.toList.take (json.len + text.length) = json.content ++ text) := by
  have hroom : json.len + (text.take (jsonBufSize - json.len - 1) ++ [0]).length ≤ jsonBufSize := by
    rw [List.length_append, List.length_take, List.length_singleton]
    omega
  obtain ⟨buf', hcopy, htake⟩ := memcpy_ok json.buf hroom
  refine ⟨buf', by rw [vsnprintf, if_neg (by omega)]; exact hcopy, fun hlen => ?_⟩
  have htext : text.take (jsonBufSize - json.len - 1) = text :=
    List.take_of_length_le (by omega)
  rw [htext, ← KstepJson.content, ← List.append_assoc] at htake
  have hall := congrArg (List.take (json.len + text.length)) htake
  rw [List.take_take, List.length_append, Nat.min_eq_left (by omega)] at hall
  rw [hall]
  apply List.take_left'
  rw [List.length_append, length_content h]

/-- A value that is formatted is appended with its comma. -/
theorem format_agrees (h : json.len < jsonBufSize) (text : List UInt8) :
    Agrees (do
      let buf ← vsnprintf json.buf json.len (jsonBufSize - json.len) text
      if jsonBufSize - json.len ≤ text.length then .error .formatting
      else
        let json ← setLen buf (json.len + text.length)
        kstepJsonAppendChar json ','.toUInt8) (jsonAppendBuf (text ++ [','.toUInt8]) json.content) := by
  obtain ⟨buf', hprint, htake⟩ := vsnprintf_ok h text
  rw [hprint, ← jsonAppendBuf_bind]
  change Agrees (if jsonBufSize - json.len ≤ text.length then .error .formatting
    else setLen buf' (json.len + text.length) >>= fun json => kstepJsonAppendChar json ','.toUInt8) _
  rw [jsonAppendBuf, length_content h]
  by_cases hfull : jsonBufSize ≤ json.len + text.length
  · rw [if_pos hfull, if_pos (by omega)]
    exact .formatting
  · rw [if_neg hfull, if_neg (by omega)]
    have hlen : json.len + text.length < jsonBufSize := Nat.lt_of_not_le hfull
    exact (agrees_stored hlen (htake hlen)).bind fun _ h => appendChar_agrees h ','.toUInt8

def memberBytes (m : List UInt8 × List UInt8) : List UInt8 :=
  quotedBytes m.1 ++ ':'.toUInt8 :: m.2

def appendMember (json : List UInt8) (m : List UInt8 × List UInt8) : Option (List UInt8) :=
  jsonAppendBuf (memberBytes m ++ [','.toUInt8]) json

theorem fieldFmt_agrees (h : json.len < jsonBufSize) (key text : List UInt8) :
    Agrees (kstepJsonFieldFmt json key text) (appendMember json.content (key, text)) := by
  have hfmt : Agrees (kstepJsonFieldFmt json key text)
      (jsonAppendBuf (quotedBytes key) json.content >>= fun s =>
        jsonAppendBuf [':'.toUInt8] s >>= jsonAppendBuf (text ++ [','.toUInt8])) :=
    (appendStr_agrees h key).bind fun _ h => (appendChar_agrees h ':'.toUInt8).bind fun _ h =>
      format_agrees h text
  simp only [jsonAppendBuf_bind, List.singleton_append] at hfmt
  simp only [appendMember, memberBytes, List.append_assoc, List.cons_append]
  exact hfmt

theorem fieldStr_agrees (h : json.len < jsonBufSize) (key val : List UInt8) :
    Agrees (kstepJsonFieldStr json key val) (appendMember json.content (key, quotedBytes val)) := by
  have hstr : Agrees (kstepJsonFieldStr json key val)
      (jsonAppendBuf (quotedBytes key) json.content >>= fun s =>
        jsonAppendBuf [':'.toUInt8] s >>= fun s =>
          jsonAppendBuf (quotedBytes val) s >>= jsonAppendBuf [','.toUInt8]) :=
    (appendStr_agrees h key).bind fun _ h => (appendChar_agrees h ':'.toUInt8).bind fun _ h =>
      (appendStr_agrees h val).bind fun _ h => appendChar_agrees h ','.toUInt8
  simp only [jsonAppendBuf_bind, List.singleton_append] at hstr
  simp only [appendMember, memberBytes, List.append_assoc, List.cons_append]
  exact hstr

def Call.key : Call → List UInt8
  | .fieldStr key _ | .fieldU64 key _ | .fieldS64 key _ | .fieldBool key _ | .fieldFmt key _ => key

def Call.text : Call → List UInt8
  | .fieldStr _ val => quotedBytes val
  | .fieldU64 _ val => encode (numText val.toNat)
  | .fieldS64 _ val => encode (numText val.toInt)
  | .fieldBool _ val => encode (if val then "true" else "false").toList
  | .fieldFmt _ text => text

def Call.member (call : Call) : List UInt8 × List UInt8 := (call.key, call.text)

theorem run_agrees (h : json.len < jsonBufSize) (call : Call) :
    Agrees (call.run json) (appendMember json.content call.member) := by
  cases call with
  | fieldStr key val => exact fieldStr_agrees h key val
  | fieldU64 key val => exact fieldFmt_agrees h key _
  | fieldS64 key val => exact fieldFmt_agrees h key _
  | fieldBool key val => exact fieldFmt_agrees h key _
  | fieldFmt key text => exact fieldFmt_agrees h key text

theorem foldlM_run_agrees (h : json.len < jsonBufSize) (calls : List Call) :
    Agrees (calls.foldlM Call.run json)
      (calls.foldlM (fun json call => appendMember json call.member) json.content) := by
  induction calls generalizing json with
  | nil => exact .ok h
  | cons call calls ih =>
      rw [List.foldlM_cons, List.foldlM_cons]
      exact (run_agrees h call).bind fun _ h => ih h

def timestampMember (timestamp : UInt64) : List UInt8 × List UInt8 :=
  (encode "timestamp".toList, encode (numText timestamp.toNat))

/-- The members of a record: when it was written, and what the calls gave. -/
def members (timestamp : UInt64) (calls : List Call) : List (List UInt8 × List UInt8) :=
  timestampMember timestamp :: calls.map Call.member

theorem begin_agrees (buf : Vector UInt8 jsonBufSize) (timestamp : UInt64) :
    Agrees (kstepJsonBegin buf timestamp)
      (jsonAppendBuf (['{'.toUInt8] ++ (memberBytes (timestampMember timestamp) ++
        [','.toUInt8])) []) := by
  have hzero : (⟨0, buf⟩ : KstepJson).len < jsonBufSize := Nat.zero_lt_succ _
  have hbegin := (appendChar_agrees hzero '{'.toUInt8).bind fun _ h =>
    fieldFmt_agrees h (encode "timestamp".toList) (encode (numText timestamp.toNat))
  rw [← jsonAppendBuf_bind]
  exact hbegin

theorem flatMap_comma {α : Type} (comma : α) (m : List α) (l : List (List α)) :
    ((m :: l).flatMap fun m => m ++ [comma]) = Json.commaJoin comma (m :: l) ++ [comma] := by
  induction l generalizing m with
  | nil => simp [Json.commaJoin]
  | cons m' l ih =>
      rw [List.flatMap_cons, ih]
      simp [Json.commaJoin]

def openBytes (timestamp : UInt64) (calls : List Call) : List UInt8 :=
  '{'.toUInt8 :: Json.commaJoin ','.toUInt8 ((members timestamp calls).map memberBytes)

/-- Before it is closed, a record is its members with a comma after each. -/
theorem fields_agrees (buf : Vector UInt8 jsonBufSize) (timestamp : UInt64) (calls : List Call) :
    Agrees (kstepJsonBegin buf timestamp >>= fun json => calls.foldlM Call.run json)
      (jsonAppendBuf (openBytes timestamp calls ++ [','.toUInt8]) []) := by
  have hjoin : ['{'.toUInt8] ++ (memberBytes (timestampMember timestamp) ++ [','.toUInt8]) ++
      (calls.flatMap fun call => memberBytes call.member ++ [','.toUInt8]) =
      openBytes timestamp calls ++ [','.toUInt8] := by
    have hcomma := flatMap_comma ','.toUInt8 (memberBytes (timestampMember timestamp))
      (calls.map fun call => memberBytes call.member)
    rw [List.flatMap_cons, List.flatMap_map] at hcomma
    rw [List.append_assoc, hcomma, openBytes, members, List.map_cons, List.map_map]
    rfl
  rw [← hjoin, ← foldlM_jsonAppendBuf]
  exact (begin_agrees buf timestamp).bind fun _ h => foldlM_run_agrees h calls

/-- The last comma makes way for the brace, and the line ends. -/
def close (json : KstepJson) : Except Stop KstepJson := do
  let len :=
    if 0 < json.len ∧ json.buf.toList[json.len - 1]? = some ','.toUInt8 then json.len - 1
    else json.len
  let json ← kstepJsonAppendChar ⟨len, json.buf⟩ '}'.toUInt8
  kstepJsonAppendChar json '\n'.toUInt8

def closing : List UInt8 := ['}'.toUInt8, '\n'.toUInt8]

theorem close_agrees (h : json.len < jsonBufSize) :
    Agrees (close json) (jsonAppendBuf closing
      (if json.content.getLast? = some ','.toUInt8 then json.content.dropLast
        else json.content)) := by
  have hlast : json.content.getLast? = some ','.toUInt8 ↔
      0 < json.len ∧ json.buf.toList[json.len - 1]? = some ','.toUInt8 := by
    rw [List.getLast?_eq_getElem?, length_content h, KstepJson.content, List.getElem?_take]
    by_cases hpos : 0 < json.len
    · rw [if_pos (by omega), and_iff_right hpos]
    · rw [if_neg (by omega)]
      simp [hpos]
  have hend (len : ℕ) (hlen : len < jsonBufSize) (s : List UInt8)
      (hs : (⟨len, json.buf⟩ : KstepJson).content = s) :
      Agrees (kstepJsonAppendChar ⟨len, json.buf⟩ '}'.toUInt8 >>= fun json =>
        kstepJsonAppendChar json '\n'.toUInt8) (jsonAppendBuf closing s) := by
    subst hs
    have hstart : (⟨len, json.buf⟩ : KstepJson).len < jsonBufSize := hlen
    have hboth : Agrees (kstepJsonAppendChar ⟨len, json.buf⟩ '}'.toUInt8 >>= fun json =>
        kstepJsonAppendChar json '\n'.toUInt8) (jsonAppendBuf ['}'.toUInt8]
          (⟨len, json.buf⟩ : KstepJson).content >>= jsonAppendBuf ['\n'.toUInt8]) :=
      (appendChar_agrees hstart '}'.toUInt8).bind fun _ h => appendChar_agrees h '\n'.toUInt8
    rw [jsonAppendBuf_bind] at hboth
    exact hboth
  rw [close]
  by_cases hcomma : json.content.getLast? = some ','.toUInt8
  · rw [if_pos hcomma]
    simp only [if_pos (hlast.mp hcomma)]
    refine hend (json.len - 1) (by omega) _ ?_
    rw [KstepJson.content, KstepJson.content, List.dropLast_take]
    rw [Vector.length_toList]
    exact h
  · rw [if_neg hcomma]
    simp only [if_neg (hlast.not.mp hcomma)]
    exact hend json.len h _ rfl

/-- A record that agrees with its bytes goes out as these. -/
theorem Agrees.write {r : Except Stop KstepJson} {o : Option (List UInt8)} (h : Agrees r o) :
    (∃ s, o = some s ∧ (r >>= fun json => kstepIoWrite json.buf json.len) = .ok s) ∨
      (o = none ∧ ((r >>= fun json => kstepIoWrite json.buf json.len) = .error .overflow ∨
        (r >>= fun json => kstepIoWrite json.buf json.len) = .error .formatting)) := by
  cases h with
  | ok hlen =>
      rename_i json
      have hfits : ¬ txBuf < json.len := by
        have hsizes : jsonBufSize ≤ txBuf := by decide
        omega
      refine Or.inl ⟨_, rfl, ?_⟩
      change kstepIoWrite json.buf json.len = _
      rw [kstepIoWrite, if_neg hfits]
      rfl
  | overflow => exact Or.inr ⟨rfl, Or.inl rfl⟩
  | formatting => exact Or.inr ⟨rfl, Or.inr rfl⟩

def recordBytes (timestamp : UInt64) (calls : List Call) : List UInt8 :=
  openBytes timestamp calls ++ closing

/-- A record is sent whole, or it would fill the buffer and a check of the writer's has stopped
it. -/
theorem writeCalls_cases (buf : Vector UInt8 jsonBufSize) (timestamp : UInt64) (calls : List Call) :
    ((recordBytes timestamp calls).length < jsonBufSize ∧
        writeCalls buf timestamp calls = .ok (recordBytes timestamp calls)) ∨
      (jsonBufSize ≤ (recordBytes timestamp calls).length ∧
        (writeCalls buf timestamp calls = .error .overflow ∨
          writeCalls buf timestamp calls = .error .formatting)) := by
  have hwrite : writeCalls buf timestamp calls =
      (((kstepJsonBegin buf timestamp >>= fun json => calls.foldlM Call.run json) >>= close) >>=
        fun json => kstepIoWrite json.buf json.len) := by
    simp only [writeCalls, kstepJsonEnd, close, bind_assoc]
  have hagrees : Agrees
      ((kstepJsonBegin buf timestamp >>= fun json => calls.foldlM Call.run json) >>= close)
      (jsonAppendBuf (openBytes timestamp calls ++ [','.toUInt8]) [] >>= fun s =>
        jsonAppendBuf closing (if s.getLast? = some ','.toUInt8 then s.dropLast else s)) :=
    (fields_agrees buf timestamp calls).bind fun _ h => close_agrees h
  have hclosing : closing ≠ [] := List.cons_ne_nil _ _
  rw [jsonAppendBuf_dropLast _ _ hclosing, ← recordBytes] at hagrees
  rw [hwrite]
  rcases hagrees.write with ⟨s, hs, hsent⟩ | ⟨hs, hstop⟩
  · rw [jsonAppendBuf] at hs
    split_ifs at hs with hfull
    cases hs
    rw [List.length_nil, Nat.zero_add] at hfull
    exact Or.inl ⟨Nat.lt_of_not_le hfull, hsent⟩
  · rw [jsonAppendBuf] at hs
    split_ifs at hs with hfull
    rw [List.length_nil, Nat.zero_add] at hfull
    exact Or.inr ⟨hfull, hstop⟩

theorem writeCalls_sent {buf : Vector UInt8 jsonBufSize} {timestamp : UInt64} {calls : List Call}
    {sent : List UInt8} (h : writeCalls buf timestamp calls = .ok sent) :
    sent = recordBytes timestamp calls ∧ sent.length < jsonBufSize := by
  rcases writeCalls_cases buf timestamp calls with ⟨hfits, hsent⟩ | ⟨-, hstop | hstop⟩
  · rw [hsent] at h
    cases h
    exact ⟨rfl, hfits⟩
  · rw [hstop] at h
    cases h
  · rw [hstop] at h
    cases h

theorem writeCalls_stop {buf : Vector UInt8 jsonBufSize} {timestamp : UInt64} {calls : List Call}
    {stop : Stop} (h : writeCalls buf timestamp calls = .error stop) :
    (stop = .overflow ∨ stop = .formatting) ∧
      jsonBufSize ≤ (recordBytes timestamp calls).length := by
  rcases writeCalls_cases buf timestamp calls with ⟨-, hsent⟩ | ⟨hfull, hstop | hstop⟩
  · rw [hsent] at h
    cases h
  · rw [hstop] at h
    cases h
    exact ⟨Or.inl rfl, hfull⟩
  · rw [hstop] at h
    cases h
    exact ⟨Or.inr rfl, hfull⟩

/-- The writer panics where the record would fill the buffer, and nowhere else. -/
theorem writeCalls_panics_iff (buf : Vector UInt8 jsonBufSize) (timestamp : UInt64)
    (calls : List Call) :
    (writeCalls buf timestamp calls = .error .overflow ∨
        writeCalls buf timestamp calls = .error .formatting) ↔
      jsonBufSize ≤ (recordBytes timestamp calls).length := by
  constructor
  · rintro (hstop | hstop)
    · exact (writeCalls_stop hstop).2
    · exact (writeCalls_stop hstop).2
  · intro hfull
    rcases writeCalls_cases buf timestamp calls with ⟨hfits, -⟩ | ⟨-, hstop⟩
    · omega
    · exact hstop

end KStep.RecordBuffer
