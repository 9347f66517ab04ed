import KStep.Hex
import Mathlib.Data.List.Basic
import Mathlib.Data.Nat.Cast.Order.Ring

/-!
# The newc archive format

A member is a header of a magic number and thirteen fields of eight hexadecimal digits, its name
with a NUL and its data. The data and the next member start at the next multiple of four from the
start of the archive. `read` goes from member to member up to the trailer.
-/

namespace Newc

structure Member where
  name : List UInt8
  mode : ℕ
  data : List UInt8
  deriving DecidableEq, Repr

def ascii (s : List Char) : List UInt8 := s.map fun c => UInt8.ofNat c.toNat

def magic : List UInt8 := ascii "070701".toList

def trailer : List UInt8 := ascii "TRAILER!!!".toList

def headerSize : ℕ := 6 + 13 * 8

def align (n : ℕ) : ℕ := (n + 3) / 4 * 4

def slice (archive : List UInt8) (pos n : ℕ) : Option (List UInt8) :=
  if pos + n ≤ archive.length then some ((archive.drop pos).take n) else none

def readField (archive : List UInt8) (pos : ℕ) : Option ℕ :=
  match slice archive pos 8 with
  | none => none
  | some field => Hex.value? (field.map UInt8.toNat)

def readFields (archive : List UInt8) : ℕ → ℕ → Option (List ℕ)
  | 0, _ => some []
  | n + 1, pos => match readField archive pos with
    | none => none
    | some v => (readFields archive n (pos + 8)).map (v :: ·)

def readHeader (archive : List UInt8) (pos : ℕ) : Option (List ℕ) :=
  if slice archive pos 6 = some magic then readFields archive 13 (pos + 6) else none

def readName (archive : List UInt8) (pos size : ℕ) : Option (List UInt8) :=
  match slice archive pos size with
  | none => none
  | some name =>
      if name.getLast? == some 0 && !name.dropLast.elem 0 then some name.dropLast else none

/-- The member at `pos`, and where the next one starts. -/
def readMember (archive : List UInt8) (pos : ℕ) : Option (Member × ℕ) :=
  match readHeader archive pos with
  | some [_, mode, _, _, _, _, fileSize, _, _, _, _, nameSize, _] =>
      let dataAt := align (pos + headerSize + nameSize)
      match readName archive (pos + headerSize) nameSize, slice archive dataAt fileSize with
      | some name, some data => some (⟨name, mode, data⟩, align (dataAt + fileSize))
      | _, _ => none
  | _ => none

def readMembers (archive : List UInt8) : ℕ → ℕ → Option (List Member × ℕ)
  | 0, _ => none
  | n + 1, pos => match readMember archive pos with
    | none => none
    | some (m, next) =>
        if m.name = trailer then some ([], next)
        else (readMembers archive n next).map fun p => (m :: p.1, p.2)

def read (archive : List UInt8) : Option (List Member × ℕ) :=
  readMembers archive archive.length 0

/-- The magic number, the fields and the name, without what aligns the data. -/
def header (fields : List ℕ) (name : List UInt8) : List UInt8 :=
  magic ++ (fields.flatMap (fun v => ascii (Hex.padded 8 v)) ++ (name ++ [0]))

variable {archive pre post s : List UInt8} {pos n i v : ℕ}

theorem align_le (n : ℕ) : n ≤ align n := by
  rw [align]
  omega

theorem align_add (h : 4 ∣ pos) (n : ℕ) : align (pos + n) = pos + align n := by
  rw [align, align]
  omega

theorem dvd_align (n : ℕ) : 4 ∣ align n := Dvd.intro_left _ rfl

/-- The bytes of `s` between what is before and after it. -/
theorem slice_append (pre s post : List UInt8) :
    slice (pre ++ (s ++ post)) pre.length s.length = some s := by
  rw [slice, if_pos (by simp), List.drop_left, List.take_left]

theorem codes_ascii {t : List Char} (h : ∀ c ∈ t, c.toNat < 256) :
    (ascii t).map UInt8.toNat = Hex.codes t := by
  rw [ascii, Hex.codes, List.map_map]
  exact List.map_congr_left fun c hc => Nat.mod_eq_of_lt (h c hc)

theorem length_field (hv : v < 2 ^ 32) : (ascii (Hex.padded 8 v)).length = 8 := by
  rw [ascii, List.length_map]
  exact Hex.length_padded (by decide) (by omega)

theorem readField_append (hv : v < 2 ^ 32) :
    readField (pre ++ (ascii (Hex.padded 8 v) ++ post)) pre.length = some v := by
  have hslice := slice_append pre (ascii (Hex.padded 8 v)) post
  rw [length_field hv] at hslice
  have hcodes : (ascii (Hex.padded 8 v)).map UInt8.toNat = Hex.codes (Hex.padded 8 v) :=
    codes_ascii fun c hc => (Hex.toNat_lt_of_mem_padded hc).trans (by decide)
  simp only [readField, hslice, hcodes, Hex.value?_padded]

/-- Fields below 2^32, each of eight digits, read back. -/
theorem readFields_append {fields : List ℕ} (pre post : List UInt8) (h : ∀ v ∈ fields, v < 2 ^ 32) :
    readFields (pre ++ (fields.flatMap (fun v => ascii (Hex.padded 8 v)) ++ post))
      fields.length pre.length = some fields := by
  induction fields generalizing pre with
  | nil => rfl
  | cons v fields ih =>
      have hv := h v List.mem_cons_self
      have hrest := ih (pre ++ ascii (Hex.padded 8 v)) fun w hw => h w (List.mem_cons_of_mem _ hw)
      rw [List.length_append, length_field hv, List.append_assoc] at hrest
      simp only [List.flatMap_cons, List.append_assoc, List.length_cons, readFields,
        readField_append hv, hrest, Option.map_some]

/-- The name with its NUL reads as the name. -/
theorem readName_append {name : List UInt8} (pre post : List UInt8) (h : 0 ∉ name) :
    readName (pre ++ ((name ++ [0]) ++ post)) pre.length (name.length + 1) = some name := by
  have hslice : slice (pre ++ ((name ++ [0]) ++ post)) pre.length (name.length + 1) =
      some (name ++ [0]) := by
    rw [← slice_append pre (name ++ [0]) post, List.length_append]
    rfl
  rw [readName, hslice]
  have hnul : name.elem 0 = false := by
    rw [← Bool.not_eq_true, List.elem_iff]
    exact h
  simp only [List.getLast?_concat, List.dropLast_concat, hnul, beq_self_eq_true, Bool.not_false,
    Bool.and_self, if_true]

theorem length_fields {fields : List ℕ} (h : ∀ v ∈ fields, v < 2 ^ 32) :
    (fields.flatMap fun v => ascii (Hex.padded 8 v)).length = 8 * fields.length := by
  induction fields with
  | nil => rfl
  | cons v fields ih =>
      rw [List.flatMap_cons, List.length_append, length_field (h v List.mem_cons_self),
        ih fun w hw => h w (List.mem_cons_of_mem _ hw), List.length_cons]
      omega

theorem length_header {fields : List ℕ} {name : List UInt8} (h : ∀ v ∈ fields, v < 2 ^ 32)
    (hcount : fields.length = 13) :
    (header fields name).length = headerSize + (name.length + 1) := by
  rw [header, List.length_append, List.length_append, length_fields h, hcount, List.length_append,
    ← Nat.add_assoc]
  rfl

theorem readHeader_append {fields : List ℕ} (pre name post : List UInt8)
    (h : ∀ v ∈ fields, v < 2 ^ 32) (hcount : fields.length = 13) :
    readHeader (pre ++ (header fields name ++ post)) pre.length = some fields := by
  have hmagic : slice (pre ++ (header fields name ++ post)) pre.length 6 = some magic := by
    have hslice := slice_append pre magic
      (fields.flatMap (fun v => ascii (Hex.padded 8 v)) ++ (name ++ [0]) ++ post)
    rw [header, List.append_assoc]
    exact hslice
  have hfields := readFields_append (pre ++ magic) (name ++ [0] ++ post) h
  rw [hcount, List.length_append] at hfields
  rw [readHeader, if_pos hmagic]
  simp only [header, List.append_assoc] at hfields ⊢
  exact hfields

theorem readName_header {fields : List ℕ} {name : List UInt8} (pre post : List UInt8)
    (h : ∀ v ∈ fields, v < 2 ^ 32) (hcount : fields.length = 13) (hname : 0 ∉ name) :
    readName (pre ++ (header fields name ++ post)) (pre.length + headerSize) (name.length + 1) =
      some name := by
  have hread := readName_append
    (pre ++ (magic ++ fields.flatMap fun v => ascii (Hex.padded 8 v))) post hname
  rw [List.length_append, List.length_append, length_fields h, hcount] at hread
  simp only [header, List.append_assoc] at hread ⊢
  exact hread

/-- A member whose header and data fill multiples of four, at a multiple of four, reads back. -/
theorem readMember_append {fields : List ℕ} {name data gap gap' : List UInt8} {mode : ℕ}
    (hpre : 4 ∣ pre.length) (h : ∀ v ∈ fields, v < 2 ^ 32)
    (hfields : ∃ a b c d e f g i j k,
      fields = [a, mode, b, c, d, e, data.length, f, g, i, j, name.length + 1, k])
    (hname : 0 ∉ name)
    (hgap : (header fields name ++ gap).length = align (header fields name).length)
    (hgap' : (data ++ gap').length = align data.length) :
    readMember (pre ++ ((header fields name ++ gap) ++ ((data ++ gap') ++ post))) pre.length =
      some (⟨name, mode, data⟩,
        (pre ++ ((header fields name ++ gap) ++ (data ++ gap'))).length) := by
  obtain ⟨a, b, c, d, e, f, g, i, j, k, rfl⟩ := hfields
  set fields := [a, mode, b, c, d, e, data.length, f, g, i, j, name.length + 1, k]
  have hcount : fields.length = 13 := rfl
  have hheader := readHeader_append pre name (gap ++ ((data ++ gap') ++ post)) h hcount
  have hread := readName_header pre (gap ++ ((data ++ gap') ++ post)) h hcount hname
  have hstart : align (pre.length + headerSize + (name.length + 1)) =
      (pre ++ (header fields name ++ gap)).length := by
    rw [Nat.add_assoc, align_add hpre, ← length_header h hcount, ← hgap, ← List.length_append]
  have hdata := slice_append (pre ++ (header fields name ++ gap)) data (gap' ++ post)
  have hdvd : 4 ∣ (pre ++ (header fields name ++ gap)).length := by
    rw [List.length_append, hgap]
    exact Nat.dvd_add hpre (dvd_align _)
  have hnext : align ((pre ++ (header fields name ++ gap)).length + data.length) =
      (pre ++ ((header fields name ++ gap) ++ (data ++ gap'))).length := by
    rw [align_add hdvd, ← hgap', ← List.length_append, List.append_assoc]
  simp only [List.append_assoc] at hheader hread hdata hstart hnext ⊢
  simp only [readMember, hheader, fields, hread, hstart, hdata, hnext]

end Newc
