import Mathlib.Data.List.TakeWhile
import Mathlib.Logic.Function.Basic
import Mathlib.Algebra.Group.Int.Defs

/-!
# Flat JSON objects

A record is an object of numbers, booleans and strings. Its text has no blanks, and no escapes when
its keys and strings are plain: printable ASCII without quotes and backslashes. `read` reads such a
text back.
-/

namespace FlatJson

inductive Value
  | num (n : ℤ)
  | bool (b : Bool)
  | str (s : List Char)
  deriving DecidableEq, Repr

abbrev Field := List Char × Value

abbrev Record := List Field

def quoted (s : List Char) : List Char := '"' :: (s ++ ['"'])

def numText : ℤ → List Char
  | .ofNat n => Nat.toDigits 10 n
  | .negSucc n => '-' :: Nat.toDigits 10 (n + 1)

def Value.text : Value → List Char
  | .num n => numText n
  | .bool b => (if b then "true" else "false").toList
  | .str s => quoted s

def fieldText (f : Field) : List Char := quoted f.1 ++ ':' :: f.2.text

def fieldsText : Record → List Char
  | [] => []
  | [f] => fieldText f
  | f :: r => fieldText f ++ ',' :: fieldsText r

def text (r : Record) : List Char := '{' :: (fieldsText r ++ ['}'])

def plainChar (c : Char) : Bool :=
  32 ≤ c.toNat && c.toNat < 127 && c != '"' && c != '\\'

def PlainText (s : List Char) : Prop := ∀ c ∈ s, plainChar c = true

instance : DecidablePred PlainText := fun s => List.decidableBAll _ s

def Value.Plain : Value → Prop
  | .str s => PlainText s
  | _ => True

def PlainRecord (r : Record) : Prop := ∀ f ∈ r, PlainText f.1 ∧ f.2.Plain

/-- A number that fits a `u64` or an `i64`. -/
def Value.Bounded : Value → Prop
  | .num n => -2 ^ 63 ≤ n ∧ n < 2 ^ 64
  | _ => True

instance : DecidablePred Value.Bounded
  | .num n => inferInstanceAs (Decidable (-2 ^ 63 ≤ n ∧ n < 2 ^ 64))
  | .bool _ => .isTrue trivial
  | .str _ => .isTrue trivial

def BoundedRecord (r : Record) : Prop := ∀ f ∈ r, f.2.Bounded

instance : DecidablePred BoundedRecord := fun r => List.decidableBAll _ r

/-- The object as a map: a key that is given again replaces the earlier one. -/
def toMap (r : Record) : List Char → Option Value :=
  r.foldl (fun m f => Function.update m f.1 (some f.2)) fun _ => none

def readQuoted (s : List Char) : Option (List Char × List Char) :=
  match s.dropWhile (· != '"') with
  | [] => none
  | _ :: rest => some (s.takeWhile (· != '"'), rest)

def readNat (s : List Char) : Option ℤ :=
  if s ≠ [] ∧ s.all Char.isDigit then some (Nat.ofDigitChars 10 s 0) else none

def readScalar (s : List Char) : Option Value :=
  if s = "true".toList then some (.bool true)
  else if s = "false".toList then some (.bool false)
  else match s with
    | '-' :: digits => (readNat digits).map fun n => .num (-n)
    | _ => (readNat s).map .num

def endsScalar (c : Char) : Bool := c == ',' || c == '}'

def readValue : List Char → Option (Value × List Char)
  | '"' :: s => (readQuoted s).map fun p => (.str p.1, p.2)
  | s => (readScalar (s.takeWhile fun c => !endsScalar c)).map fun value =>
      (value, s.dropWhile fun c => !endsScalar c)

def readField (s : List Char) : Option (Field × List Char) :=
  match s with
  | '"' :: s => match readQuoted s with
    | some (key, ':' :: s) => (readValue s).map fun p => ((key, p.1), p.2)
    | _ => none
  | _ => none

def readFields : ℕ → List Char → Option Record
  | 0, _ => none
  | n + 1, s => match readField s with
    | some (f, ['}']) => some [f]
    | some (f, ',' :: s) => (readFields n s).map (f :: ·)
    | _ => none

def read : List Char → Option Record
  | ['{', '}'] => some []
  | '{' :: s => readFields s.length s
  | _ => none

variable {r : Record} {f : Field} {v : Value} {s rest : List Char} {c : Char} {n : ℕ}

theorem length_fieldText (f : Field) :
    (fieldText f).length = f.1.length + f.2.text.length + 3 := by
  simp only [fieldText, quoted, List.length_append, List.length_cons, List.length_nil]
  omega

theorem numText_plain (n : ℤ) : PlainText (numText n) := by
  have hdigits (n : ℕ) : PlainText (Nat.toDigits 10 n) := by
    intro c hc
    have hdigit := Nat.isDigit_of_mem_toDigits (by decide) (by decide) hc
    rw [Char.isDigit_iff_toNat] at hdigit
    simp only [plainChar, Bool.and_eq_true, decide_eq_true_eq, bne_iff_ne]
    refine ⟨⟨by simp at hdigit; omega, ?_⟩, ?_⟩ <;>
    · rintro rfl
      simp at hdigit
  rcases n with n | n
  · exact hdigits n
  · intro c hc
    rcases List.mem_cons.mp hc with rfl | hc
    · decide
    · exact hdigits (n + 1) c hc

theorem Value.text_printable (h : v.Plain) (hc : c ∈ v.text) : 32 ≤ c.toNat := by
  have hplain {s : List Char} (hs : PlainText s) (hc : c ∈ s) : 32 ≤ c.toNat := by
    have hchar := hs c hc
    simp only [plainChar, Bool.and_eq_true, decide_eq_true_eq] at hchar
    exact hchar.1.1.1
  match v with
  | .num n => exact hplain (numText_plain n) hc
  | .bool true => exact hplain (by decide : PlainText "true".toList) hc
  | .bool false => exact hplain (by decide : PlainText "false".toList) hc
  | .str s =>
      rcases List.mem_cons.mp hc with rfl | hc
      · decide
      · rcases List.mem_append.mp hc with hc | hc
        · exact hplain h hc
        · rw [List.mem_singleton.mp hc]
          decide

theorem fieldText_printable (h : PlainText f.1 ∧ f.2.Plain) (hc : c ∈ fieldText f) :
    32 ≤ c.toNat := by
  rcases List.mem_append.mp hc with hc | hc
  · exact Value.text_printable (v := .str f.1) h.1 hc
  · rcases List.mem_cons.mp hc with rfl | hc
    · decide
    · exact Value.text_printable h.2 hc

theorem fieldsText_printable (h : PlainRecord r) (hc : c ∈ fieldsText r) : 32 ≤ c.toNat := by
  induction r with
  | nil => cases hc
  | cons f r ih =>
      have hf := h f List.mem_cons_self
      rcases r with _ | ⟨g, r⟩
      · exact fieldText_printable hf hc
      · rcases List.mem_append.mp hc with hc | hc
        · exact fieldText_printable hf hc
        · rcases List.mem_cons.mp hc with rfl | hc
          · decide
          · exact ih (fun f hf => h f (List.mem_cons_of_mem _ hf)) hc

/-- The text of a plain record has no control characters. -/
theorem text_printable (h : PlainRecord r) (hc : c ∈ text r) : 32 ≤ c.toNat := by
  rcases List.mem_cons.mp hc with rfl | hc
  · decide
  · rcases List.mem_append.mp hc with hc | hc
    · exact fieldsText_printable h hc
    · rw [List.mem_singleton.mp hc]
      decide

theorem isSome_toMap {k : List Char} : (toMap r k).isSome ↔ ∃ f ∈ r, f.1 = k := by
  have hfold (m : List Char → Option Value) :
      (r.foldl (fun (m : List Char → Option Value) f =>
        Function.update m f.1 (some f.2)) m k).isSome ↔
      (m k).isSome ∨ ∃ f ∈ r, f.1 = k := by
    induction r generalizing m with
    | nil => simp
    | cons f r ih =>
        rw [List.foldl_cons, ih]
        by_cases hk : f.1 = k
        · simp [hk]
        · simp [Function.update_of_ne (Ne.symm hk), hk]
  rw [toMap, hfold]
  simp

theorem readQuoted_append (h : PlainText s) : readQuoted (s ++ '"' :: rest) = some (s, rest) := by
  have hs (c : Char) (hc : c ∈ s) : (c != '"') = true := by
    have hplain := h c hc
    simp only [plainChar, Bool.and_eq_true] at hplain
    exact hplain.1.2
  rw [readQuoted, List.dropWhile_append_of_pos hs, List.dropWhile_cons_of_neg (by simp),
    List.takeWhile_append_of_pos hs, List.takeWhile_cons_of_neg (by simp), List.append_nil]

theorem readNat_toDigits : readNat (Nat.toDigits 10 n) = some (n : ℤ) := by
  have hdigits : (Nat.toDigits 10 n).all Char.isDigit = true :=
    List.all_eq_true.mpr fun c hc => Nat.isDigit_of_mem_toDigits (by decide) (by decide) hc
  rw [readNat, if_pos ⟨Nat.toDigits_ne_nil, hdigits⟩, Nat.ofDigitChars_ten_toDigits]

theorem isDigit_head {d : List Char} (h : Nat.toDigits 10 n = c :: d) : c.isDigit = true :=
  Nat.isDigit_of_mem_toDigits (by decide) (by decide) (h ▸ List.mem_cons_self)

theorem readScalar_num (n : ℤ) : readScalar (numText n) = some (.num n) := by
  rcases n with n | n
  · rcases hdigits : Nat.toDigits 10 n with _ | ⟨c, d⟩
    · exact absurd hdigits Nat.toDigits_ne_nil
    · have hc := isDigit_head hdigits
      have hread : readNat (c :: d) = some (n : ℤ) := hdigits ▸ readNat_toDigits
      have htrue : c :: d ≠ "true".toList := by
        rintro ⟨⟩
        cases hc
      have hfalse : c :: d ≠ "false".toList := by
        rintro ⟨⟩
        cases hc
      rw [numText, hdigits, readScalar, if_neg htrue, if_neg hfalse, hread]
      · rfl
      · rintro d' ⟨⟩
        cases hc
  · rw [numText, readScalar, if_neg (by rintro ⟨⟩), if_neg (by rintro ⟨⟩)]
    simp only [readNat_toDigits, Option.map_some]
    rfl

theorem readScalar_bool (b : Bool) : readScalar (Value.bool b).text = some (.bool b) := by
  cases b <;> decide

/-- A scalar's text starts with no quote and goes up to the comma or the brace. -/
theorem scalar_text (hv : ∀ s, v ≠ .str s) :
    (∃ c d, v.text = c :: d ∧ c ≠ '"') ∧ ∀ c ∈ v.text, (!endsScalar c) = true := by
  have hdigit {c : Char} (hc : c.isDigit = true) : c ≠ '"' ∧ (!endsScalar c) = true := by
    constructor
    · rintro rfl
      cases hc
    · rw [Bool.not_eq_true', endsScalar, Bool.or_eq_false_iff]
      constructor <;>
      · rw [beq_eq_false_iff_ne]
        rintro rfl
        cases hc
  have hdigits (n : ℕ) (c : Char) (hc : c ∈ Nat.toDigits 10 n) : c.isDigit = true :=
    Nat.isDigit_of_mem_toDigits (by decide) (by decide) hc
  match v with
  | .str s => exact absurd rfl (hv s)
  | .bool b =>
      have hends : ∀ b, (Value.bool b).text.all (fun c => !endsScalar c) = true := by decide
      refine ⟨?_, List.all_eq_true.mp (hends b)⟩
      cases b
      · exact ⟨'f', _, rfl, by decide⟩
      · exact ⟨'t', _, rfl, by decide⟩
  | .num (.ofNat n) =>
      refine ⟨?_, fun c hc => (hdigit (hdigits n c hc)).2⟩
      rcases htext : Nat.toDigits 10 n with _ | ⟨c, d⟩
      · exact absurd htext Nat.toDigits_ne_nil
      · exact ⟨c, d, htext, (hdigit (isDigit_head htext)).1⟩
  | .num (.negSucc n) =>
      refine ⟨⟨'-', _, rfl, by decide⟩, fun c hc => ?_⟩
      rcases List.mem_cons.mp hc with rfl | hc
      · decide
      · exact (hdigit (hdigits (n + 1) c hc)).2

theorem readScalar_text (hv : ∀ s, v ≠ .str s) : readScalar v.text = some v := by
  match v with
  | .str s => exact absurd rfl (hv s)
  | .bool b => exact readScalar_bool b
  | .num n => exact readScalar_num n

theorem readValue_append (h : v.Plain) (hc : endsScalar c = true) :
    readValue (v.text ++ c :: rest) = some (v, c :: rest) := by
  by_cases hv : ∃ s, v = .str s
  · obtain ⟨s, rfl⟩ := hv
    have htext : (Value.str s).text ++ c :: rest = '"' :: (s ++ '"' :: c :: rest) := by
      simp [Value.text, quoted]
    rw [htext, readValue, readQuoted_append h]
    rfl
  · rw [not_exists] at hv
    obtain ⟨⟨d, t, htext, hd⟩, hends⟩ := scalar_text hv
    have hread : readValue (v.text ++ c :: rest) =
        (readScalar ((v.text ++ c :: rest).takeWhile fun c => !endsScalar c)).map fun value =>
          (value, (v.text ++ c :: rest).dropWhile fun c => !endsScalar c) := by
      rw [htext, List.cons_append, readValue]
      rintro t' ⟨⟩
      exact hd rfl
    rw [hread, List.takeWhile_append_of_pos hends, List.dropWhile_append_of_pos hends,
      List.takeWhile_cons_of_neg (by simp [hc]), List.dropWhile_cons_of_neg (by simp [hc]),
      List.append_nil, readScalar_text hv]
    rfl

theorem readField_append (h : PlainText f.1 ∧ f.2.Plain) (hc : endsScalar c = true) :
    readField (fieldText f ++ c :: rest) = some (f, c :: rest) := by
  have htext : fieldText f ++ c :: rest =
      '"' :: (f.1 ++ '"' :: ':' :: (f.2.text ++ c :: rest)) := by
    simp [fieldText, quoted]
  simp only [htext, readField, readQuoted_append h.1, readValue_append h.2 hc, Option.map_some]

theorem readFields_fieldsText (h : PlainRecord r) (hne : r ≠ []) (hn : r.length ≤ n) :
    readFields n (fieldsText r ++ ['}']) = some r := by
  induction r generalizing n with
  | nil => exact absurd rfl hne
  | cons f r ih =>
      obtain ⟨n, rfl⟩ : ∃ m, n = m + 1 := ⟨n - 1, by simp at hn; omega⟩
      have hf := h f List.mem_cons_self
      rcases r with _ | ⟨g, r⟩
      · simp only [fieldsText, readFields, readField_append hf (c := '}') (by decide)]
      · have hrest := ih (n := n) (fun f hf => h f (List.mem_cons_of_mem _ hf)) (by simp)
          (by simpa using hn)
        have htext : fieldsText (f :: g :: r) ++ ['}'] =
            fieldText f ++ ',' :: (fieldsText (g :: r) ++ ['}']) := by
          simp [fieldsText]
        simp only [htext, readFields, readField_append hf (c := ',') (by decide), hrest,
          Option.map_some]

theorem length_le_fieldsText : r.length ≤ (fieldsText r).length := by
  induction r with
  | nil => exact le_rfl
  | cons f r ih =>
      have hf : 0 < (fieldText f).length := by simp [length_fieldText]
      rcases r with _ | ⟨g, r⟩
      · exact hf
      · simp only [fieldsText, List.length_append, List.length_cons] at ih ⊢
        omega

/-- The text of a plain record reads back as the record. -/
theorem read_text (h : PlainRecord r) : read (text r) = some r := by
  by_cases hne : r = []
  · subst hne
    rfl
  · have hlen : r.length ≤ (fieldsText r ++ ['}']).length :=
      length_le_fieldsText.trans (by simp)
    rw [text, read, readFields_fieldsText h hne hlen]
    intro heq
    have hpos : 0 < (fieldsText r).length :=
      (List.length_pos_iff.mpr hne).trans_le length_le_fieldsText
    have hlen := congrArg List.length heq
    simp only [List.length_append, List.length_singleton] at hlen
    omega

end FlatJson
