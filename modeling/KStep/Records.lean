import KStep.FlatJson

/-!
# Records for the host

`kstep_json` is a record under construction: the part of `buf` in use. Every append checks that it
leaves room, and a panic is `none`. However a record is put together, its text is written or the
buffer is too small for it.
-/

namespace KStep

open FlatJson

def jsonBufSize : ℕ := 512 - 8

def jsonAppendChar (c : Char) (json : List Char) : Option (List Char) :=
  if jsonBufSize ≤ json.length + 1 then none else some (json ++ [c])

def jsonAppendBuf {α : Type} (buf json : List α) : Option (List α) :=
  if jsonBufSize ≤ json.length + buf.length then none else some (json ++ buf)

def jsonAppendStr (str json : List Char) : Option (List Char) := do
  let json ← jsonAppendChar '"' json
  let json ← jsonAppendBuf str json
  jsonAppendChar '"' json

/-- `kstep_json_field_vfmt`, with the text `vsnprintf` makes of the value. -/
def jsonFieldFmt (key val json : List Char) : Option (List Char) := do
  let json ← jsonAppendStr key json
  let json ← jsonAppendChar ':' json
  if jsonBufSize - json.length ≤ val.length then none else jsonAppendChar ',' (json ++ val)

def jsonFieldStr (key val json : List Char) : Option (List Char) := do
  let json ← jsonAppendStr key json
  let json ← jsonAppendChar ':' json
  let json ← jsonAppendStr val json
  jsonAppendChar ',' json

def jsonField (json : List Char) (f : Field) : Option (List Char) :=
  match f.2 with
  | .str s => jsonFieldStr f.1 s json
  | value => jsonFieldFmt f.1 value.text json

def timestampField (timestamp : ℕ) : Field := ("timestamp".toList, .num timestamp)

def jsonBegin (timestamp : ℕ) : Option (List Char) := do
  let json ← jsonAppendChar '{' []
  jsonField json (timestampField timestamp)

def jsonEnd (json : List Char) : Option (List Char) := do
  let json ← jsonAppendChar '}' (if json.getLast? = some ',' then json.dropLast else json)
  jsonAppendChar '\n' json

def writeRecord (timestamp : ℕ) (fields : List Field) : Option (List Char) := do
  let json ← jsonBegin timestamp
  let json ← fields.foldlM jsonField json
  jsonEnd json

theorem jsonAppendChar_eq (c : Char) (json : List Char) :
    jsonAppendChar c json = jsonAppendBuf [c] json := rfl

/-- Two appends are one append of both texts. -/
theorem jsonAppendBuf_bind {α : Type} (s t json : List α) :
    (jsonAppendBuf s json >>= jsonAppendBuf t) = jsonAppendBuf (s ++ t) json := by
  simp only [jsonAppendBuf, List.length_append]
  by_cases hs : jsonBufSize ≤ json.length + s.length
  · rw [if_pos hs, if_pos (by omega)]
    rfl
  · rw [if_neg hs]
    simp only [bind, Option.bind, jsonAppendBuf, List.length_append, List.append_assoc,
      Nat.add_assoc]

theorem jsonAppendStr_eq (s json : List Char) :
    jsonAppendStr s json = jsonAppendBuf (quoted s) json := by
  simp only [jsonAppendStr, jsonAppendChar_eq, jsonAppendBuf_bind, quoted, List.singleton_append]

theorem jsonFieldStr_eq (key val json : List Char) :
    jsonFieldStr key val json = jsonAppendBuf (quoted key ++ ':' :: quoted val ++ [',']) json := by
  simp only [jsonFieldStr, jsonAppendChar_eq, jsonAppendStr_eq, jsonAppendBuf_bind,
    List.append_assoc, List.cons_append, List.nil_append]

theorem jsonFieldFmt_eq (key val json : List Char) :
    jsonFieldFmt key val json = jsonAppendBuf (quoted key ++ ':' :: val ++ [',']) json := by
  have hval (json : List Char) :
      (if jsonBufSize - json.length ≤ val.length then none
        else jsonAppendBuf [','] (json ++ val)) = jsonAppendBuf (val ++ [',']) json := by
    by_cases hfull : jsonBufSize - json.length ≤ val.length
    · rw [if_pos hfull, jsonAppendBuf, if_pos (by simp; omega)]
    · rw [if_neg hfull]
      simp only [jsonAppendBuf, List.length_append, List.append_assoc, Nat.add_assoc]
  simp only [jsonFieldFmt, jsonAppendChar_eq, hval, jsonAppendStr_eq, jsonAppendBuf_bind,
    List.append_assoc, List.cons_append, List.nil_append]

theorem jsonField_eq (json : List Char) (f : Field) :
    jsonField json f = jsonAppendBuf (fieldText f ++ [',']) json := by
  rcases f with ⟨key, n | b | s⟩
  · exact jsonFieldFmt_eq _ _ _
  · exact jsonFieldFmt_eq _ _ _
  · exact jsonFieldStr_eq _ _ _

/-- Appends in a loop are one append of all the texts. -/
theorem foldlM_jsonAppendBuf {α β : Type} (f : β → List α) (l : List β) (s json : List α) :
    (jsonAppendBuf s json >>= fun json => l.foldlM (fun json a => jsonAppendBuf (f a) json) json) =
      jsonAppendBuf (s ++ l.flatMap f) json := by
  induction l generalizing s with
  | nil => simp
  | cons a l ih =>
      simp only [List.foldlM_cons, ← bind_assoc, jsonAppendBuf_bind, ih, List.flatMap_cons,
        List.append_assoc]

theorem foldlM_jsonField (fields : List Field) (s json : List Char) :
    (jsonAppendBuf s json >>= fields.foldlM jsonField) =
      jsonAppendBuf (s ++ fields.flatMap fun f => fieldText f ++ [',']) json := by
  rw [← foldlM_jsonAppendBuf]
  simp only [← jsonField_eq]

/-- A last comma makes way for what comes behind it. -/
theorem jsonAppendBuf_dropLast {α : Type} [DecidableEq α] (comma : α) (s : List α) {t : List α}
    (ht : t ≠ []) : (jsonAppendBuf (s ++ [comma]) [] >>= fun json =>
      jsonAppendBuf t (if json.getLast? = some comma then json.dropLast else json)) =
      jsonAppendBuf (s ++ t) [] := by
  have hpos := List.length_pos_iff.mpr ht
  simp only [jsonAppendBuf, List.length_nil, Nat.zero_add, List.length_append, List.length_singleton,
    List.nil_append]
  by_cases hfull : jsonBufSize ≤ s.length + 1
  · rw [if_pos hfull, if_pos (by omega)]
    rfl
  · rw [if_neg hfull]
    simp only [bind, Option.bind, List.getLast?_concat, if_true, List.dropLast_concat]

theorem jsonAppendBuf_jsonEnd (s : List Char) :
    (jsonAppendBuf (s ++ [',']) [] >>= jsonEnd) = jsonAppendBuf (s ++ ['}', '\n']) [] := by
  have hend : jsonEnd = fun json =>
      jsonAppendBuf ['}', '\n'] (if json.getLast? = some ',' then json.dropLast else json) := by
    funext json
    simp only [jsonEnd, jsonAppendChar_eq, jsonAppendBuf_bind]
    rfl
  rw [hend]
  exact jsonAppendBuf_dropLast ',' s (List.cons_ne_nil _ _)

theorem flatMap_fieldText (f : Field) (fields : List Field) :
    ((f :: fields).flatMap fun f => fieldText f ++ [',']) = fieldsText (f :: fields) ++ [','] := by
  induction fields generalizing f with
  | nil => simp [fieldsText]
  | cons g fields ih =>
      rw [List.flatMap_cons, ih g]
      simp [fieldsText]

/-- A record is written whole on one line, unless it would fill the buffer. -/
theorem writeRecord_eq (timestamp : ℕ) (fields : List Field) :
    writeRecord timestamp fields =
      jsonAppendBuf (text (timestampField timestamp :: fields) ++ ['\n']) [] := by
  have hfields : (jsonBegin timestamp >>= fields.foldlM jsonField) =
      jsonAppendBuf ('{' :: fieldsText (timestampField timestamp :: fields) ++ [',']) [] := by
    have hbegin : jsonBegin timestamp =
        jsonAppendBuf (['{'] ++ (fieldText (timestampField timestamp) ++ [','])) [] := by
      simp only [jsonBegin, jsonAppendChar_eq, jsonField_eq]
      exact jsonAppendBuf_bind _ _ _
    have hcons := flatMap_fieldText (timestampField timestamp) fields
    rw [List.flatMap_cons] at hcons
    rw [hbegin, foldlM_jsonField, List.append_assoc, hcons]
    rfl
  have hwrite : writeRecord timestamp fields =
      ((jsonBegin timestamp >>= fields.foldlM jsonField) >>= jsonEnd) := by
    simp only [writeRecord, bind_assoc]
  rw [hwrite, hfields, jsonAppendBuf_jsonEnd, text]
  simp

end KStep
