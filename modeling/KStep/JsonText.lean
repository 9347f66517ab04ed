import KStep.Json
import KStep.FlatJson

/-!
# Texts that read back

Plain strings, integers and booleans, and the object of members whose values read: each text reads
as the value it was made from.
-/

namespace Json

open FlatJson (quoted)

variable {s t key text : List Char} {v : Value} {n : ℕ}

/-- A character that stands for itself in a string. -/
def literal (c : Char) : Bool := decide (32 ≤ c.toNat) && c != '"' && c != '\\'

def Literal (s : List Char) : Prop := ∀ c ∈ s, literal c = true

instance : DecidablePred Literal := fun s => List.decidableBAll _ s

def memberText (m : List Char × List Char) : List Char := quoted m.1 ++ ':' :: m.2

def commaJoin {α : Type} (comma : α) : List (List α) → List α
  | [] => []
  | [a] => a
  | a :: l => a ++ comma :: commaJoin comma l

def objectText (l : List (List Char × List Char)) : List Char :=
  '{' :: (commaJoin ',' (l.map memberText) ++ ['}'])

theorem readString_literal (h : Literal s) :
    readString .plain (s ++ '"' :: t) = some (s, t) := by
  induction s with
  | nil => rfl
  | cons c s ih =>
      have hc := h c List.mem_cons_self
      simp only [literal, Bool.and_eq_true, decide_eq_true_eq, bne_iff_ne] at hc
      obtain ⟨⟨hprintable, hquote⟩, hslash⟩ := hc
      rw [List.cons_append, readString]
      · simp only [strStep, if_neg hslash, if_neg (Nat.not_lt.mpr hprintable),
          ih fun d hd => h d (List.mem_cons_of_mem c hd), Option.map_some, List.singleton_append]
      · rintro -
        exact hquote

theorem readKey_literal (h : Literal key) (hne : skipWs text ≠ []) :
    readKey (memberText (key, text) ++ t) = some (key, skipWs text ++ t) := by
  have htext : memberText (key, text) ++ t = '"' :: (key ++ '"' :: ':' :: (text ++ t)) := by
    simp [memberText, quoted]
  have hcolon : expect ':' (':' :: (text ++ t)) = some (text ++ t) := rfl
  simp only [htext, readKey, if_true, readString_literal h, hcolon, Option.map_some,
    skipWs_append hne]

/-- The value of a text, as the reader meets it. -/
theorem read_inv (h : read s = some v) :
    ∃ r, readValue (2 * s.length + 1) (skipWs s) = some (v, r) ∧ skipWs r = [] ∧ skipWs s ≠ [] := by
  rw [read] at h
  rcases hv : readValue (2 * s.length + 1) (skipWs s) with _ | ⟨w, r⟩
  · rw [hv] at h
    cases h
  · rw [hv] at h
    simp only at h
    split_ifs at h with hr
    · cases h
      refine ⟨r, rfl, hr, fun hnil => ?_⟩
      rw [hnil, readValue_nil] at hv
      cases hv

theorem skipWs_blank_append (h : skipWs s = []) : skipWs (s ++ t) = skipWs t := by
  rw [skipWs, List.dropWhile_append, if_pos]
  · rfl
  · rw [List.isEmpty_iff]
    exact h

def Reads (m : List Char × List Char) (w : List Char × Value) : Prop :=
  Literal m.1 ∧ w.1 = m.1 ∧ read m.2 = some w.2

theorem readMore_blank {α : Type} {close : Char}
    {items : List Char → Option (List α × List Char)} {a : α} (h : skipWs s = []) :
    readMore close items a (s ++ t) = readMore close items a t := by
  simp only [readMore, expect, skipWs_blank_append h]

/-- One member, with what may follow it. -/
theorem readMembers_member {m : List Char × List Char} {w : List Char × Value} (h : Reads m w)
    (hn : 2 * m.2.length + 1 ≤ n) (ht : Stops t) :
    readMembers (n + 1) (memberText m ++ t) = readMore '}' (readMembers n) w t := by
  obtain ⟨key, text⟩ := m
  obtain ⟨key', v⟩ := w
  obtain ⟨hkey, rfl, hread⟩ := h
  obtain ⟨r, hvalue, hblank, hne⟩ := read_inv hread
  rw [readMembers, readKey_literal hkey hne]
  simp only [readValue_append hvalue hn ht]
  exact readMore_blank hblank

theorem skipWs_members (m : List Char × List Char) (l : List (List Char × List Char))
    (t : List Char) :
    skipWs (commaJoin ',' ((m :: l).map memberText) ++ t) =
      commaJoin ',' ((m :: l).map memberText) ++ t := by
  cases l <;> rfl

/-- The members of an object, with their values, up to the brace. -/
theorem readMembers_append {m : List Char × List Char} {l : List (List Char × List Char)}
    {ws : List (List Char × Value)} (h : List.Forall₂ Reads (m :: l) ws)
    (hn : 2 * (commaJoin ',' ((m :: l).map memberText)).length < n) :
    readMembers n (commaJoin ',' ((m :: l).map memberText) ++ '}' :: t) = some (ws, t) := by
  have hstops (c : Char) (hc : c = ',' ∨ c = '}') (u : List Char) : Stops (c :: u) := by
    rintro d ⟨⟩
    rcases hc with rfl | rfl <;> decide
  have hlen (m : List Char × List Char) : m.2.length + 3 ≤ (memberText m).length := by
    simp only [memberText, quoted, List.length_append, List.length_cons, List.length_nil]
    omega
  induction l generalizing m ws n with
  | nil =>
      obtain ⟨n, rfl⟩ : ∃ k, n = k + 1 := ⟨n - 1, by omega⟩
      cases h with
      | cons hmw hrest =>
          cases hrest
          have hm := hlen m
          simp only [List.map_cons, List.map_nil, commaJoin] at hn ⊢
          rw [readMembers_member hmw (by omega) (hstops '}' (Or.inr rfl) t)]
          rfl
  | cons m' l ih =>
      obtain ⟨n, rfl⟩ : ∃ k, n = k + 1 := ⟨n - 1, by omega⟩
      cases h with
      | cons hmw hrest =>
          have hm := hlen m
          have hjoin : commaJoin ',' ((m :: m' :: l).map memberText) =
            memberText m ++ ',' :: commaJoin ',' ((m' :: l).map memberText) := rfl
          rw [hjoin, List.length_append, List.length_cons] at hn
          have hnext := ih (n := n) hrest (by omega)
          rw [hjoin, List.append_assoc, List.cons_append,
            readMembers_member hmw (by omega) (hstops ',' (Or.inl rfl) _)]
          have hcomma (u : List Char) : expect ',' (',' :: u) = some u := rfl
          simp only [readMore, hcomma, skipWs_members, hnext, Option.map_some]

/-- An object whose members read, reads as the object of their values. -/
theorem read_objectText {l : List (List Char × List Char)} {ws : List (List Char × Value)}
    (hne : l ≠ []) (h : List.Forall₂ Reads l ws) : read (objectText l) = some (.obj ws) := by
  obtain ⟨m, l, rfl⟩ := List.exists_cons_of_ne_nil hne
  have hbrace : expect '}' (commaJoin ',' ((m :: l).map memberText) ++ ['}']) = none := by
    rw [expect, skipWs_members]
    cases l <;> rfl
  have hmembers := readMembers_append (t := []) (n := 2 * (objectText (m :: l)).length) h (by
    simp only [objectText, List.length_cons, List.length_append]
    omega)
  have hvalue : readValue (2 * (objectText (m :: l)).length + 1) (objectText (m :: l)) =
      some (.obj ws, []) := by
    rw [objectText, readValue, if_neg (by decide), if_neg (by decide), if_pos rfl, readList, hbrace]
    simp only [skipWs_members]
    rw [← objectText, hmembers]
    rfl
  have hopen : skipWs (objectText (m :: l)) = objectText (m :: l) := rfl
  rw [read, hopen, hvalue]
  rfl

theorem read_quoted (h : Literal s) : read (quoted s) = some (.str s) := by
  have hvalue : readValue (2 * (quoted s).length + 1) (quoted s) = some (.str s, []) := by
    rw [quoted, readValue, if_pos rfl, readString_literal h]
    rfl
  have hopen : skipWs (quoted s) = quoted s := rfl
  rw [read, hopen, hvalue]
  rfl

theorem read_bool (b : Bool) : read (if b then "true" else "false").toList = some (.bool b) := by
  cases b <;> rfl

/-- A number has no zero before another digit. -/
theorem head_toDigits (h : 0 < n) : (Nat.toDigits 10 n).head? ≠ some '0' := by
  induction n using Nat.strongRecOn with
  | ind n ih =>
      by_cases hn : n < 10
      · have hdigit : ∀ d < 10, 0 < d → d.digitChar ≠ '0' := by decide
        rw [Nat.toDigits_of_lt_base hn]
        intro hzero
        exact hdigit n hn h (Option.some.inj hzero)
      · have hrest := ih (n / 10) (by omega) (by omega)
        rw [Nat.toDigits_of_base_le (by decide) (by omega)]
        rcases hd : Nat.toDigits 10 (n / 10) with _ | ⟨c, d⟩
        · exact absurd hd Nat.toDigits_ne_nil
        · rw [hd] at hrest
          exact hrest

theorem readUnsigned_toDigits (negative : Bool) (n : ℕ) :
    readUnsigned negative (Nat.toDigits 10 n) = some (.num (signed negative n) 0, []) := by
  have hall : ∀ c ∈ Nat.toDigits 10 n, c.isDigit = true := fun c hc =>
    Nat.isDigit_of_mem_toDigits (by decide) (by decide) hc
  have hdigits : digits (Nat.toDigits 10 n) = Nat.toDigits 10 n :=
    List.takeWhile_eq_self_iff.mpr hall
  have hafter : afterDigits (Nat.toDigits 10 n) = [] := List.dropWhile_eq_nil_iff.mpr hall
  have hzero : ¬ (Nat.toDigits 10 n = [] ∨
      (Nat.toDigits 10 n).head? = some '0' ∧ Nat.toDigits 10 n ≠ ['0']) := by
    rintro (hnil | ⟨hhead, hne⟩)
    · exact Nat.toDigits_ne_nil hnil
    · rcases Nat.eq_zero_or_pos n with rfl | hpos
      · exact hne rfl
      · exact head_toDigits hpos hhead
  rw [readUnsigned, hdigits, if_neg hzero, hafter]
  simp only [readFraction, readExponent, List.append_nil, Nat.ofDigitChars_ten_toDigits,
    List.length_nil]
  rfl

theorem read_scalar {c : Char} {d : List Char}
    (hc : blank c = false ∧ c ≠ '"' ∧ c ≠ '[' ∧ c ≠ '{')
    (h : readScalar (c :: d) = some (v, [])) : read (c :: d) = some v := by
  have hopen : skipWs (c :: d) = c :: d :=
    List.dropWhile_cons_of_neg (by rw [hc.1]; exact Bool.false_ne_true)
  have hvalue : readValue (2 * (c :: d).length + 1) (c :: d) = some (v, []) := by
    rw [readValue, if_neg hc.2.1, if_neg hc.2.2.1, if_neg hc.2.2.2, h]
  rw [read, hopen, hvalue]
  rfl

/-- A decimal number reads back. -/
theorem read_numText (z : ℤ) : read (FlatJson.numText z) = some (.num z 0) := by
  rcases z with n | n
  · rcases hn : Nat.toDigits 10 n with _ | ⟨c, d⟩
    · exact absurd hn Nat.toDigits_ne_nil
    · have hc := FlatJson.isDigit_head hn
      have hne (x : Char) (hx : x.isDigit = false) : c ≠ x := by
        rintro rfl
        rw [hc] at hx
        cases hx
      have hblank : blank c = false := by
        simp only [blank, Bool.or_eq_false_iff, beq_eq_false_iff_ne]
        exact ⟨⟨⟨hne _ rfl, hne _ rfl⟩, hne _ rfl⟩, hne _ rfl⟩
      rw [FlatJson.numText, hn]
      refine read_scalar ⟨hblank, hne _ rfl, hne _ rfl, hne _ rfl⟩ ?_
      rw [readScalar, if_neg (hne _ rfl), if_neg (hne _ rfl), if_neg (hne _ rfl),
        if_neg (hne _ rfl), ← hn, readUnsigned_toDigits]
      rfl
  · refine read_scalar ⟨rfl, by decide, by decide, by decide⟩ ?_
    rw [readScalar, if_neg (by decide), if_neg (by decide), if_neg (by decide), if_pos rfl,
      readUnsigned_toDigits]
    rfl

end Json
