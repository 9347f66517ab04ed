import KStep.ShmDecode

/-!
# Text decoded lossily

`String::from_utf8_lossy` gives back every text that is UTF-8, whatever follows it. A text read in
pieces is therefore read whole when each piece ends at a character.
-/

namespace KStep.Shm

def encode (text : List Char) : List UInt8 := text.flatMap String.utf8EncodeChar

variable {m v : ℕ} {x y z w : UInt8} {bytes : List UInt8} {s t : List Char}

theorem encode_append : encode (s ++ t) = encode s ++ encode t := List.flatMap_append

theorem toNat_byte (h : m < 256) : (UInt8.ofNat m).toNat = m := by
  rw [UInt8.toNat_ofNat']
  exact Nat.mod_eq_of_lt h

theorem isCont_ofNat (h : m < 64) : isCont (UInt8.ofNat (m + 128)) = true := by
  have hall : ∀ m : Fin 64, isCont (UInt8.ofNat (m + 128)) = true := by decide
  exact hall ⟨m, h⟩

/-- No three bytes are an overlong encoding or a surrogate. -/
theorem isSecond3_ofNat {p q : ℕ} (hp : p < 16) (hq : q < 64) (hlong : p = 0 → 32 ≤ q)
    (hsurrogate : p = 13 → q < 32) :
    isSecond3 (UInt8.ofNat (p + 224)) (UInt8.ofNat (q + 128)) = true := by
  have hall : ∀ p : Fin 16, ∀ q : Fin 64, (p.1 = 0 → 32 ≤ q.1) → (p.1 = 13 → q.1 < 32) →
      isSecond3 (UInt8.ofNat (p + 224)) (UInt8.ofNat (q + 128)) = true := by decide +kernel
  exact hall ⟨p, hp⟩ ⟨q, hq⟩ hlong hsurrogate

theorem isSecond4_ofNat {p q : ℕ} (hp : p < 5) (hq : q < 64) (hlong : p = 0 → 16 ≤ q)
    (hmax : p = 4 → q < 16) :
    isSecond4 (UInt8.ofNat (p + 240)) (UInt8.ofNat (q + 128)) = true := by
  have hall : ∀ p : Fin 5, ∀ q : Fin 64, (p.1 = 0 → 16 ≤ q.1) → (p.1 = 4 → q.1 < 16) →
      isSecond4 (UInt8.ofNat (p + 240)) (UInt8.ofNat (q + 128)) = true := by decide +kernel
  exact hall ⟨p, hp⟩ ⟨q, hq⟩ hlong hmax

theorem fromUtf8Lossy_one (h : x.toNat < 0x80) :
    fromUtf8Lossy (x :: bytes) = scalar x.toNat [] :: fromUtf8Lossy bytes := by
  have hx : x < 0x80 := UInt8.lt_iff_toNat_lt.mpr h
  rw [fromUtf8Lossy.eq_def]
  simp only [hx, if_true]

theorem fromUtf8Lossy_two (hlo : 0xC2 ≤ x.toNat) (hhi : x.toNat ≤ 0xDF) (hy : isCont y = true) :
    fromUtf8Lossy (x :: y :: bytes) = scalar (x.toNat % 32) [y] :: fromUtf8Lossy bytes := by
  have hascii : ¬ x.toNat < 128 := by omega
  rw [fromUtf8Lossy.eq_def]
  simp [UInt8.lt_iff_toNat_lt, UInt8.le_iff_toNat_le, hlo, hhi, hy, hascii]

theorem fromUtf8Lossy_three (hlo : 0xE0 ≤ x.toNat) (hhi : x.toNat ≤ 0xEF)
    (hy : isSecond3 x y = true) (hz : isCont z = true) :
    fromUtf8Lossy (x :: y :: z :: bytes) =
      scalar (x.toNat % 16) [y, z] :: fromUtf8Lossy bytes := by
  have hascii : ¬ x.toNat < 128 := by omega
  have htwo : ¬ x.toNat ≤ 223 := by omega
  rw [fromUtf8Lossy.eq_def]
  simp [UInt8.lt_iff_toNat_lt, UInt8.le_iff_toNat_le, hlo, hhi, hy, hz, hascii, htwo]

theorem fromUtf8Lossy_four (hlo : 0xF0 ≤ x.toNat) (hhi : x.toNat ≤ 0xF4)
    (hy : isSecond4 x y = true) (hz : isCont z = true) (hw : isCont w = true) :
    fromUtf8Lossy (x :: y :: z :: w :: bytes) =
      scalar (x.toNat % 8) [y, z, w] :: fromUtf8Lossy bytes := by
  have hascii : ¬ x.toNat < 128 := by omega
  have htwo : ¬ x.toNat ≤ 223 := by omega
  have hthree : ¬ x.toNat ≤ 239 := by omega
  rw [fromUtf8Lossy.eq_def]
  simp [UInt8.lt_iff_toNat_lt, UInt8.le_iff_toNat_le, hlo, hhi, hy, hz, hw, hascii, htwo, hthree]

theorem toNat_valid (c : Char) :
    c.toNat < 0xD800 ∨ 0xDFFF < c.toNat ∧ c.toNat < 0x110000 := c.valid

/-- The encoding of a character is decoded to it, whatever follows. -/
theorem fromUtf8Lossy_char (c : Char) (bytes : List UInt8) :
    fromUtf8Lossy (String.utf8EncodeChar c ++ bytes) = c :: fromUtf8Lossy bytes := by
  have hvalid := toNat_valid c
  have hc : Char.ofNat c.toNat = c := Char.ofNat_toNat c
  have hval : c.val.toNat = c.toNat := rfl
  have hcont (m : ℕ) : (UInt8.ofNat (m % 64 + 128)).toNat = m % 64 + 128 := toNat_byte (by omega)
  unfold String.utf8EncodeChar
  rw [hval]
  generalize c.toNat = v at *
  simp only
  split_ifs with hone htwo hthree
  · have hx : (UInt8.ofNat v).toNat = v := toNat_byte (by omega)
    rw [List.cons_append, List.nil_append, fromUtf8Lossy_one (by omega), scalar, hx,
      List.foldl_nil, hc]
  · have hx : (UInt8.ofNat (v / 64 % 32 + 192)).toNat = v / 64 % 32 + 192 := toNat_byte (by omega)
    have hv : (v / 64 % 32 + 192) % 32 * 64 + (v % 64 + 128) % 64 = v := by omega
    rw [List.cons_append, List.cons_append, List.nil_append,
      fromUtf8Lossy_two (by omega) (by omega) (isCont_ofNat (by omega)), scalar]
    simp only [List.foldl_cons, List.foldl_nil, hx, hcont, hv, hc]
  · have hx : (UInt8.ofNat (v / 4096 % 16 + 224)).toNat = v / 4096 % 16 + 224 :=
      toNat_byte (by omega)
    have hv : ((v / 4096 % 16 + 224) % 16 * 64 + (v / 64 % 64 + 128) % 64) * 64 +
        (v % 64 + 128) % 64 = v := by omega
    have hsecond := isSecond3_ofNat (p := v / 4096 % 16) (q := v / 64 % 64) (by omega) (by omega)
      (by omega) (by omega)
    rw [List.cons_append, List.cons_append, List.cons_append, List.nil_append,
      fromUtf8Lossy_three (by omega) (by omega) hsecond (isCont_ofNat (by omega)), scalar]
    simp only [List.foldl_cons, List.foldl_nil, hx, hcont, hv, hc]
  · have hx : (UInt8.ofNat (v / 262144 % 8 + 240)).toNat = v / 262144 % 8 + 240 :=
      toNat_byte (by omega)
    have hv : (((v / 262144 % 8 + 240) % 8 * 64 + (v / 4096 % 64 + 128) % 64) * 64 +
        (v / 64 % 64 + 128) % 64) * 64 + (v % 64 + 128) % 64 = v := by omega
    have hsecond := isSecond4_ofNat (p := v / 262144 % 8) (q := v / 4096 % 64) (by omega) (by omega)
      (by omega) (by omega)
    rw [List.cons_append, List.cons_append, List.cons_append, List.cons_append, List.nil_append,
      fromUtf8Lossy_four (by omega) (by omega) hsecond (isCont_ofNat (by omega))
        (isCont_ofNat (by omega)), scalar]
    simp only [List.foldl_cons, List.foldl_nil, hx, hcont, hv, hc]

theorem fromUtf8Lossy_encode_append (s : List Char) (bytes : List UInt8) :
    fromUtf8Lossy (encode s ++ bytes) = s ++ fromUtf8Lossy bytes := by
  induction s with
  | nil => rfl
  | cons c s ih =>
      rw [encode, List.flatMap_cons, List.append_assoc, fromUtf8Lossy_char, ← encode, ih,
        List.cons_append]

/-- What is UTF-8 is decoded to the text it encodes. -/
theorem fromUtf8Lossy_encode (s : List Char) : fromUtf8Lossy (encode s) = s := by
  have h := fromUtf8Lossy_encode_append s []
  rwa [List.append_nil, fromUtf8Lossy, List.append_nil] at h

theorem encode_injective : Function.Injective encode :=
  Function.LeftInverse.injective fromUtf8Lossy_encode

/-- Bytes that continue one text to another hold whole characters. -/
theorem encode_append_eq (h : encode s ++ bytes = encode t) :
    ∃ u, t = s ++ u ∧ bytes = encode u := by
  have ht : t = s ++ fromUtf8Lossy bytes := by
    rw [← fromUtf8Lossy_encode t, ← h, fromUtf8Lossy_encode_append]
  refine ⟨fromUtf8Lossy bytes, ht, ?_⟩
  rw [ht, encode_append] at h
  exact List.append_cancel_left h

def fromUtf8 (bytes : List UInt8) : Option (List Char) :=
  if encode (fromUtf8Lossy bytes) = bytes then some (fromUtf8Lossy bytes) else none

theorem fromUtf8_eq_some : fromUtf8 bytes = some s ↔ bytes = encode s := by
  rw [fromUtf8]
  constructor
  · intro h
    split_ifs at h with hbytes
    cases h
    exact hbytes.symm
  · rintro rfl
    rw [fromUtf8Lossy_encode, if_pos rfl]

theorem encodeChar_ascii {c : Char} (h : c.toNat < 128) :
    String.utf8EncodeChar c = [UInt8.ofNat c.toNat] := by
  have hval : c.val.toNat = c.toNat := rfl
  simp only [String.utf8EncodeChar, hval, if_pos (Nat.le_of_lt_succ h)]

theorem encode_cons_ascii {c : Char} (h : c.toNat < 128) (s : List Char) :
    encode (c :: s) = UInt8.ofNat c.toNat :: encode s := by
  rw [encode, List.flatMap_cons, encodeChar_ascii h]
  rfl

theorem encodeChar_high {c : Char} (h : 128 ≤ c.toNat) :
    ∀ b ∈ String.utf8EncodeChar c, 128 ≤ b.toNat := by
  have hval : c.val.toNat = c.toNat := rfl
  have hvalid := toNat_valid c
  unfold String.utf8EncodeChar
  rw [hval]
  generalize c.toNat = v at *
  have hbyte (m : ℕ) (hlo : 128 ≤ m) (hhi : m < 256) : 128 ≤ (UInt8.ofNat m).toNat := by
    rw [toNat_byte hhi]
    exact hlo
  simp only
  split_ifs with hone htwo hthree
  · omega
  all_goals
    simp only [List.forall_mem_cons, List.not_mem_nil, false_imp_iff, implies_true, and_true]
    refine ⟨hbyte _ (by omega) (by omega), ?_⟩
    repeat' apply And.intro
    all_goals exact hbyte _ (by omega) (by omega)

theorem length_encode_ascii (h : ∀ c ∈ s, c.toNat < 128) : (encode s).length = s.length := by
  induction s with
  | nil => rfl
  | cons c s ih =>
      rw [encode_cons_ascii (h c List.mem_cons_self), List.length_cons, List.length_cons,
        ih fun c hc => h c (List.mem_cons_of_mem _ hc)]

end KStep.Shm
