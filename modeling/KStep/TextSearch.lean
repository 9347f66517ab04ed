import KStep.LossyText

/-!
# Searching a text and its bytes

A text file is bytes, and `str::find` looks for a pattern in the text they encode. A pattern of ASCII
characters is found in the text where its bytes are found in the file's: no byte of another character
is below 128.
-/

namespace KStep.TextSearch

open Shm

section Find

variable {α : Type} [BEq α]

/-- `str::find`, as the rest of the text from the first match on. -/
def find (text pattern : List α) : Option (List α) :=
  text.tails.find? fun rest => pattern.isPrefixOf rest

def contains (text pattern : List α) : Bool := (find text pattern).isSome

variable [LawfulBEq α] {text pattern rest high : List α} {a : α}

theorem find_at_head (h : pattern <+: text) : find text pattern = some text := by
  have hhead : pattern.isPrefixOf text = true := List.isPrefixOf_iff_prefix.mpr h
  cases text with
  | nil => simp [find, hhead]
  | cons b text => simp [find, hhead]

theorem find_cons (h : ¬ pattern <+: a :: rest) : find (a :: rest) pattern = find rest pattern := by
  have hhead : pattern.isPrefixOf (a :: rest) = false := by
    rw [Bool.eq_false_iff]
    exact fun hp => h (List.isPrefixOf_iff_prefix.mp hp)
  simp [find, hhead]

/-- What cannot begin the pattern is skipped. -/
theorem find_skip (h : a ∉ high) :
    find (high ++ rest) (a :: pattern) = find rest (a :: pattern) := by
  induction high with
  | nil => rfl
  | cons b high ih =>
      rw [List.cons_append, find_cons, ih (fun hmem => h (List.mem_cons_of_mem _ hmem))]
      intro hp
      rw [List.cons_prefix_cons] at hp
      exact h (hp.1 ▸ List.mem_cons_self)

theorem contains_iff : contains text pattern = true ↔ pattern <:+: text := by
  rw [contains, find, List.find?_isSome, List.infix_iff_prefix_suffix]
  refine exists_congr fun rest => ?_
  rw [List.mem_tails, List.isPrefixOf_iff_prefix, and_comm]

end Find

variable {c : Char} {s p : List Char} {bytes : List UInt8}

theorem encode_prefix_iff : encode p <+: encode s ↔ p <+: s := by
  constructor
  · rintro ⟨bytes, h⟩
    obtain ⟨u, hu, -⟩ := encode_append_eq h
    exact ⟨u, hu.symm⟩
  · rintro ⟨u, rfl⟩
    exact ⟨encode u, encode_append.symm⟩

/-- The bytes of an ASCII pattern are found where the pattern is. -/
theorem find_encode (hc : c.toNat < 128) (p s : List Char) :
    find (encode s) (encode (c :: p)) = (find s (c :: p)).map encode := by
  induction s with
  | nil =>
      rw [encode_cons_ascii hc]
      rfl
  | cons d s ih =>
      by_cases hp : c :: p <+: d :: s
      · rw [find_at_head hp, find_at_head (encode_prefix_iff.mpr hp), Option.map_some]
      · rw [find_cons hp, ← ih]
        rcases Nat.lt_or_ge d.toNat 128 with hd | hd
        · rw [encode_cons_ascii hd, find_cons]
          rwa [← encode_cons_ascii hd, encode_prefix_iff]
        · have hcons : encode (d :: s) = String.utf8EncodeChar d ++ encode s := rfl
          rw [hcons, encode_cons_ascii hc, find_skip]
          intro hmem
          have hlow := encodeChar_high hd _ hmem
          rw [toNat_byte (by omega)] at hlow
          omega

theorem contains_encode (hc : c.toNat < 128) (p s : List Char) :
    contains (encode s) (encode (c :: p)) = contains s (c :: p) := by
  rw [contains, contains, find_encode hc, Option.isSome_map]

end KStep.TextSearch
