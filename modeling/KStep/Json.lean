import KStep.Hex
import Mathlib.Data.Int.Init
import Mathlib.Data.List.TakeWhile

/-!
# JSON values

A reader of any JSON text: nested objects and arrays, numbers with a fraction and an exponent, the
escapes of strings, blanks between tokens. A number is read as a mantissa and a power of ten.
`n` bounds the nesting of the calls and the length of their lists; twice the length of the text is
always enough.
-/

namespace Json

inductive Value
  | null
  | bool (b : Bool)
  | num (mantissa exponent : ℤ)
  | str (s : List Char)
  | arr (l : List Value)
  | obj (l : List (List Char × Value))

def blank (c : Char) : Bool := c == ' ' || c == '\t' || c == '\n' || c == '\r'

def skipWs (s : List Char) : List Char := s.dropWhile blank

/-- Where a string is: between characters, after a backslash, in the digits of a unit (after a high
surrogate or not), or before the second unit of a pair. -/
inductive StrState
  | plain
  | escape
  | unit (high : Option ℕ) (count value : ℕ)
  | pair (high : ℕ)
  | pairU (high : ℕ)

def endUnit : Option ℕ → ℕ → Option (List Char × StrState)
  | none, v =>
      if 0xD800 ≤ v ∧ v < 0xDC00 then some ([], .pair v)
      else if 0xDC00 ≤ v ∧ v < 0xE000 then none
      else some ([Char.ofNat v], .plain)
  | some high, v =>
      if 0xDC00 ≤ v ∧ v < 0xE000 then
        some ([Char.ofNat (0x10000 + (high - 0xD800) * 0x400 + (v - 0xDC00))], .plain)
      else none

def escaped (c : Char) : Option (List Char × StrState) :=
  match c with
  | '"' => some (['"'], .plain)
  | '\\' => some (['\\'], .plain)
  | '/' => some (['/'], .plain)
  | 'b' => some ([Char.ofNat 8], .plain)
  | 'f' => some ([Char.ofNat 12], .plain)
  | 'n' => some (['\n'], .plain)
  | 'r' => some (['\r'], .plain)
  | 't' => some (['\t'], .plain)
  | 'u' => some ([], .unit none 0 0)
  | _ => none

def strStep : StrState → Char → Option (List Char × StrState)
  | .plain, c =>
      if c = '\\' then some ([], .escape) else if c.toNat < 32 then none else some ([c], .plain)
  | .escape, c => escaped c
  | .unit high count value, c => match Hex.digit? c.toNat with
    | none => none
    | some d =>
        if count < 3 then some ([], .unit high (count + 1) (16 * value + d))
        else endUnit high (16 * value + d)
  | .pair high, c => if c = '\\' then some ([], .pairU high) else none
  | .pairU high, c => if c = 'u' then some ([], .unit (some high) 0 0) else none

def readString : StrState → List Char → Option (List Char × List Char)
  | _, [] => none
  | .plain, '"' :: s => some ([], s)
  | st, c :: s => match strStep st c with
    | none => none
    | some (out, st) => (readString st s).map fun p => (out ++ p.1, p.2)

def digits (s : List Char) : List Char := s.takeWhile Char.isDigit

def afterDigits (s : List Char) : List Char := s.dropWhile Char.isDigit

def readFraction : List Char → Option (List Char × List Char)
  | [] => some ([], [])
  | c :: s =>
      if c = '.' then if digits s = [] then none else some (digits s, afterDigits s)
      else some ([], c :: s)

def readSign : List Char → Bool × List Char
  | [] => (false, [])
  | c :: s => if c = '-' then (true, s) else if c = '+' then (false, s) else (false, c :: s)

def signed (negative : Bool) (n : ℤ) : ℤ := if negative then -n else n

def readPower (sign : Bool × List Char) : Option (ℤ × List Char) :=
  if digits sign.2 = [] then none
  else some (signed sign.1 (Nat.ofDigitChars 10 (digits sign.2) 0), afterDigits sign.2)

def readExponent : List Char → Option (ℤ × List Char)
  | [] => some (0, [])
  | c :: s => if c = 'e' ∨ c = 'E' then readPower (readSign s) else some (0, c :: s)

def readUnsigned (negative : Bool) (s : List Char) : Option (Value × List Char) :=
  if digits s = [] ∨ (digits s).head? = some '0' ∧ digits s ≠ ['0'] then none
  else match readFraction (afterDigits s) with
    | none => none
    | some (fraction, t) => match readExponent t with
      | none => none
      | some (e, t) =>
          some (.num (signed negative (Nat.ofDigitChars 10 (digits s ++ fraction) 0))
            (e - fraction.length), t)

def readWord (word : List Char) (v : Value) (s : List Char) : Option (Value × List Char) :=
  if word.isPrefixOf s then some (v, s.drop word.length) else none

def readScalar : List Char → Option (Value × List Char)
  | [] => none
  | c :: s =>
      if c = 't' then readWord ['r', 'u', 'e'] (.bool true) s
      else if c = 'f' then readWord ['a', 'l', 's', 'e'] (.bool false) s
      else if c = 'n' then readWord ['u', 'l', 'l'] .null s
      else if c = '-' then readUnsigned true s
      else readUnsigned false (c :: s)

def expect (c : Char) (s : List Char) : Option (List Char) :=
  match skipWs s with
  | [] => none
  | d :: s => if d = c then some s else none

def readKey : List Char → Option (List Char × List Char)
  | [] => none
  | c :: s =>
      if c = '"' then match readString .plain s with
        | none => none
        | some (key, s) => (expect ':' s).map fun s => (key, skipWs s)
      else none

/-- What stands between two brackets: nothing, or what `items` reads up to the closing one. -/
def readList {α : Type} (close : Char) (items : List Char → Option (List α × List Char))
    (s : List Char) : Option (List α × List Char) :=
  match expect close s with
  | some s => some ([], s)
  | none => items (skipWs s)

def readMore {α : Type} (close : Char) (items : List Char → Option (List α × List Char)) (a : α)
    (s : List Char) : Option (List α × List Char) :=
  match expect ',' s with
  | some s => (items (skipWs s)).map fun p => (a :: p.1, p.2)
  | none => (expect close s).map fun s => ([a], s)

mutual

def readValue : ℕ → List Char → Option (Value × List Char)
  | 0, _ => none
  | _ + 1, [] => none
  | n + 1, c :: s =>
      if c = '"' then (readString .plain s).map fun p => (.str p.1, p.2)
      else if c = '[' then (readList ']' (readElements n) s).map fun p => (.arr p.1, p.2)
      else if c = '{' then (readList '}' (readMembers n) s).map fun p => (.obj p.1, p.2)
      else readScalar (c :: s)

def readElements : ℕ → List Char → Option (List Value × List Char)
  | 0, _ => none
  | n + 1, s => match readValue n s with
    | none => none
    | some (v, s) => readMore ']' (readElements n) v s

def readMembers : ℕ → List Char → Option (List (List Char × Value) × List Char)
  | 0, _ => none
  | n + 1, s => match readKey s with
    | none => none
    | some (key, s) => match readValue n s with
      | none => none
      | some (v, s) => readMore '}' (readMembers n) (key, v) s

end

def read (s : List Char) : Option Value :=
  match readValue (2 * s.length + 1) (skipWs s) with
  | none => none
  | some (v, rest) => if skipWs rest = [] then some v else none

section Append

variable {s t r : List Char} {c : Char} {v : Value} {n : ℕ}

/-- What may follow a number without being part of it. -/
def Stops (t : List Char) : Prop :=
  ∀ c, t.head? = some c → c.isDigit = false ∧ c ≠ '.' ∧ c ≠ 'e' ∧ c ≠ 'E'

theorem skipWs_append (h : skipWs s ≠ []) : skipWs (s ++ t) = skipWs s ++ t := by
  rw [skipWs, List.dropWhile_append, if_neg]
  · rfl
  · rw [List.isEmpty_iff]
    exact h

theorem skipWs_ne_nil (h : expect c s = some r) : skipWs s ≠ [] := by
  intro hnil
  rw [expect, hnil] at h
  cases h

theorem expect_append (h : expect c s = some r) : expect c (s ++ t) = some (r ++ t) := by
  have hne := skipWs_ne_nil h
  rw [expect] at h
  rw [expect, skipWs_append hne]
  rcases hs : skipWs s with _ | ⟨d, u⟩
  · exact absurd hs hne
  · rw [hs] at h
    simp only [List.cons_append] at h ⊢
    split_ifs at h ⊢ with hd
    · cases h
      rfl

theorem expect_append_none (h : expect c s = none) (hne : skipWs s ≠ []) :
    expect c (s ++ t) = none := by
  rw [expect] at h
  rw [expect, skipWs_append hne]
  rcases hs : skipWs s with _ | ⟨d, u⟩
  · exact absurd hs hne
  · rw [hs] at h
    simp only [List.cons_append] at h ⊢
    split_ifs at h ⊢ with hd
    · rfl

theorem readString_append {st : StrState} {out : List Char} (h : readString st s = some (out, r)) :
    readString st (s ++ t) = some (out, r ++ t) := by
  induction s generalizing st out with
  | nil =>
      rw [readString] at h
      cases h
  | cons c s ih =>
      by_cases hend : st = .plain ∧ c = '"'
      · obtain ⟨rfl, rfl⟩ := hend
        cases h
        rfl
      · have hstep (u : List Char) : readString st (c :: u) = match strStep st c with
          | none => none
          | some (out, st) => (readString st u).map fun p => (out ++ p.1, p.2) := by
          rw [readString]
          rintro rfl rfl
          exact hend ⟨rfl, rfl⟩
        rw [hstep] at h
        rw [List.cons_append, hstep]
        rcases hc : strStep st c with _ | ⟨o, st'⟩
        · rw [hc] at h
          cases h
        · rw [hc] at h
          simp only [Option.map_eq_some_iff] at h ⊢
          obtain ⟨⟨out', r'⟩, hread, heq⟩ := h
          cases heq
          exact ⟨(out', r' ++ t), ih hread, rfl⟩

theorem digits_append (ht : Stops t) :
    digits (s ++ t) = digits s ∧ afterDigits (s ++ t) = afterDigits s ++ t := by
  induction s with
  | nil =>
      cases t with
      | nil => exact ⟨rfl, rfl⟩
      | cons c t =>
          have hc : ¬ c.isDigit = true := by
            rw [(ht c rfl).1]
            exact Bool.false_ne_true
          exact ⟨List.takeWhile_cons_of_neg hc, List.dropWhile_cons_of_neg hc⟩
  | cons c s ih =>
      by_cases hc : c.isDigit = true
      · simp only [digits, afterDigits, List.cons_append, List.takeWhile_cons_of_pos hc,
          List.dropWhile_cons_of_pos hc] at ih ⊢
        exact ⟨congrArg (c :: ·) ih.1, ih.2⟩
      · simp only [digits, afterDigits, List.cons_append, List.takeWhile_cons_of_neg hc,
          List.dropWhile_cons_of_neg hc, and_self]

theorem readFraction_append {f : List Char} (ht : Stops t) (h : readFraction s = some (f, r)) :
    readFraction (s ++ t) = some (f, r ++ t) := by
  cases s with
  | nil =>
      cases h
      cases t with
      | nil => rfl
      | cons c t => exact if_neg (ht c rfl).2.1
  | cons c s =>
      simp only [readFraction, List.cons_append, digits_append ht] at h ⊢
      split_ifs at h ⊢
      · cases h
        rfl
      · cases h
        rfl

theorem readPower_append {e : ℤ} {negative : Bool} (ht : Stops t)
    (h : readPower (negative, s) = some (e, r)) :
    readPower (negative, s ++ t) = some (e, r ++ t) := by
  simp only [readPower, digits_append ht] at h ⊢
  split_ifs at h ⊢
  · cases h
    rfl

theorem readExponent_append {e : ℤ} (ht : Stops t) (h : readExponent s = some (e, r)) :
    readExponent (s ++ t) = some (e, r ++ t) := by
  cases s with
  | nil =>
      cases h
      cases t with
      | nil => rfl
      | cons c t => exact if_neg (not_or.mpr (ht c rfl).2.2)
  | cons c s =>
      simp only [readExponent, List.cons_append] at h ⊢
      split_ifs at h ⊢ with he
      · cases s with
        | nil => cases h
        | cons d s =>
            have hsign : readSign (d :: s ++ t) =
                ((readSign (d :: s)).1, (readSign (d :: s)).2 ++ t) := by
              simp only [readSign, List.cons_append]
              split_ifs <;> rfl
            rw [hsign]
            exact readPower_append ht h
      · cases h
        rfl

theorem readUnsigned_append {negative : Bool} (ht : Stops t)
    (h : readUnsigned negative s = some (v, r)) :
    readUnsigned negative (s ++ t) = some (v, r ++ t) := by
  simp only [readUnsigned, digits_append ht] at h ⊢
  split_ifs at h ⊢ with hdigits
  · rcases hf : readFraction (afterDigits s) with _ | ⟨f, u⟩
    · rw [hf] at h
      cases h
    · rw [hf] at h
      rw [readFraction_append ht hf]
      simp only at h ⊢
      rcases he : readExponent u with _ | ⟨e, w⟩
      · rw [he] at h
        cases h
      · rw [he] at h
        rw [readExponent_append ht he]
        cases h
        rfl

theorem readWord_append {word : List Char} {w : Value} (h : readWord word w s = some (v, r)) :
    readWord word w (s ++ t) = some (v, r ++ t) := by
  rw [readWord] at h
  split_ifs at h with hword
  · obtain ⟨u, rfl⟩ := List.isPrefixOf_iff_prefix.mp hword
    cases h
    rw [readWord, if_pos]
    · rw [List.append_assoc, List.drop_left, List.drop_left]
    · rw [List.isPrefixOf_iff_prefix, List.append_assoc]
      exact List.prefix_append word (u ++ t)

theorem readScalar_append (ht : Stops t) (h : readScalar s = some (v, r)) :
    readScalar (s ++ t) = some (v, r ++ t) := by
  cases s with
  | nil => cases h
  | cons c s =>
      simp only [readScalar, List.cons_append] at h ⊢
      split_ifs at h ⊢
      · exact readWord_append h
      · exact readWord_append h
      · exact readWord_append h
      · exact readUnsigned_append ht h
      · exact readUnsigned_append ht h

theorem readKey_append {key : List Char} (h : readKey s = some (key, r)) (hr : r ≠ []) :
    readKey (s ++ t) = some (key, r ++ t) := by
  cases s with
  | nil => cases h
  | cons c s =>
      simp only [readKey, List.cons_append] at h ⊢
      split_ifs at h ⊢
      · rcases hstr : readString .plain s with _ | ⟨k, u⟩
        · rw [hstr] at h
          cases h
        · rw [hstr] at h
          rw [readString_append hstr]
          simp only [Option.map_eq_some_iff] at h ⊢
          obtain ⟨w, hw, heq⟩ := h
          cases heq
          exact ⟨w ++ t, expect_append hw, by rw [skipWs_append hr]⟩

end Append

section Extends

variable {α : Type} {s t r : List Char} {n m : ℕ}

def Extends (read : ℕ → List Char → Option (α × List Char)) (n : ℕ) : Prop :=
  ∀ m s t v r, n ≤ m → Stops t → read n s = some (v, r) → read m (s ++ t) = some (v, r ++ t)

theorem readValue_nil (n : ℕ) : readValue n [] = none := by
  cases n <;> rfl

theorem readElements_nil (n : ℕ) : readElements n [] = none := by
  cases n with
  | zero => rfl
  | succ n => rw [readElements, readValue_nil]

theorem readMembers_nil (n : ℕ) : readMembers n [] = none := by
  cases n <;> rfl

section Lists

variable {close : Char} {items : ℕ → List Char → Option (List α × List Char)} {l : List α}

theorem readList_append (hitems : Extends items n) (hnil : items n [] = none) (hle : n ≤ m)
    (ht : Stops t) (h : readList close (items n) s = some (l, r)) :
    readList close (items m) (s ++ t) = some (l, r ++ t) := by
  rw [readList] at h
  rcases hend : expect close s with _ | u
  · rw [hend] at h
    have hne : skipWs s ≠ [] := by
      intro hs
      rw [hs, hnil] at h
      cases h
    rw [readList, expect_append_none hend hne, skipWs_append hne]
    exact hitems m _ t l r hle ht h
  · rw [hend] at h
    cases h
    rw [readList, expect_append hend]

theorem readMore_append {a : α} (hitems : Extends items n) (hnil : items n [] = none) (hle : n ≤ m)
    (ht : Stops t) (h : readMore close (items n) a s = some (l, r)) :
    readMore close (items m) a (s ++ t) = some (l, r ++ t) := by
  rw [readMore] at h
  rcases hcomma : expect ',' s with _ | u
  · rw [hcomma] at h
    simp only [Option.map_eq_some_iff] at h
    obtain ⟨u, hend, heq⟩ := h
    cases heq
    rw [readMore, expect_append_none hcomma (skipWs_ne_nil hend), expect_append hend]
    rfl
  · rw [hcomma] at h
    simp only [Option.map_eq_some_iff] at h
    obtain ⟨⟨l, u'⟩, hread, heq⟩ := h
    cases heq
    have hne : skipWs u ≠ [] := by
      intro hu
      rw [hu, hnil] at hread
      cases hread
    rw [readMore, expect_append hcomma]
    simp only [skipWs_append hne, hitems m _ t l u' hle ht hread, Option.map_some]

end Lists

theorem extends_readValue (helements : Extends readElements n) (hmembers : Extends readMembers n) :
    Extends readValue (n + 1) := by
  intro m s t v r hm ht h
  obtain ⟨m, rfl⟩ : ∃ k, m = k + 1 := ⟨m - 1, by omega⟩
  have hle : n ≤ m := Nat.le_of_succ_le_succ hm
  cases s with
  | nil =>
      rw [readValue_nil] at h
      cases h
  | cons c s =>
      simp only [readValue, List.cons_append] at h ⊢
      split_ifs at h ⊢
      · simp only [Option.map_eq_some_iff] at h ⊢
        obtain ⟨⟨out, u⟩, hread, heq⟩ := h
        cases heq
        exact ⟨(out, u ++ t), readString_append hread, rfl⟩
      · simp only [Option.map_eq_some_iff] at h ⊢
        obtain ⟨⟨l, u⟩, hread, heq⟩ := h
        cases heq
        exact ⟨(l, u ++ t), readList_append helements (readElements_nil n) hle ht hread, rfl⟩
      · simp only [Option.map_eq_some_iff] at h ⊢
        obtain ⟨⟨l, u⟩, hread, heq⟩ := h
        cases heq
        exact ⟨(l, u ++ t), readList_append hmembers (readMembers_nil n) hle ht hread, rfl⟩
      · exact readScalar_append ht h

theorem extends_readElements (hvalue : Extends readValue n) (helements : Extends readElements n) :
    Extends readElements (n + 1) := by
  intro m s t l r hm ht h
  obtain ⟨m, rfl⟩ : ∃ k, m = k + 1 := ⟨m - 1, by omega⟩
  have hle : n ≤ m := Nat.le_of_succ_le_succ hm
  rw [readElements] at h
  rcases hv : readValue n s with _ | ⟨v, u⟩
  · rw [hv] at h
    cases h
  · rw [hv] at h
    rw [readElements, hvalue m s t v u hle ht hv]
    exact readMore_append helements (readElements_nil n) hle ht h

theorem extends_readMembers (hvalue : Extends readValue n) (hmembers : Extends readMembers n) :
    Extends readMembers (n + 1) := by
  intro m s t l r hm ht h
  obtain ⟨m, rfl⟩ : ∃ k, m = k + 1 := ⟨m - 1, by omega⟩
  have hle : n ≤ m := Nat.le_of_succ_le_succ hm
  rw [readMembers] at h
  rcases hkey : readKey s with _ | ⟨key, u⟩
  · rw [hkey] at h
    cases h
  · rw [hkey] at h
    simp only at h
    rcases hv : readValue n u with _ | ⟨v, w⟩
    · rw [hv] at h
      cases h
    · rw [hv] at h
      have hne : u ≠ [] := by
        rintro rfl
        rw [readValue_nil] at hv
        cases hv
      rw [readMembers, readKey_append hkey hne]
      simp only [hvalue m u t v w hle ht hv]
      exact readMore_append hmembers (readMembers_nil n) hle ht h

theorem extends_all (n : ℕ) :
    Extends readValue n ∧ Extends readElements n ∧ Extends readMembers n := by
  induction n with
  | zero =>
      refine ⟨?_, ?_, ?_⟩ <;>
      · intro m s t v r _ _ h
        cases h
  | succ n ih =>
      obtain ⟨hvalue, helements, hmembers⟩ := ih
      exact ⟨extends_readValue helements hmembers, extends_readElements hvalue helements,
        extends_readMembers hvalue hmembers⟩

/-- A value is read the same when more may be read and something follows that is no part of it. -/
theorem readValue_append {v : Value} (h : readValue n s = some (v, r)) (hle : n ≤ m)
    (ht : Stops t) : readValue m (s ++ t) = some (v, r ++ t) :=
  (extends_all n).1 m s t v r hle ht h

end Extends

end Json
