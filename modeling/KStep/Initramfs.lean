import KStep.Newc

/-!
# The initramfs

`build_rootfs` writes the module and the user program as a newc archive. A header and a file's data
are each filled up to a multiple of four by themselves, so every part of the archive starts at one.
-/

namespace KStep.Rootfs

open Newc

def resize (data : List UInt8) (n : ℕ) (value : UInt8) : List UInt8 :=
  data.take n ++ List.replicate (n - data.length) value

def nextMultipleOf (n k : ℕ) : ℕ := if n % k = 0 then n else n + (k - n % k)

def pad4 (data : List UInt8) : List UInt8 := resize data (nextMultipleOf data.length 4) 0

/-- `0o100755`: a regular file that root may write and all may run. -/
def fileMode : ℕ := 0o100755

/-- ino, mode, uid, gid, nlink, mtime, filesize, devmajor, devminor, rdevmajor, rdevminor, namesize
and check. -/
def cpioFields (name : List UInt8) (size : ℕ) : List ℕ :=
  [0, fileMode, 0, 0, 1, 0, size, 0, 0, 0, 0, name.length + 1, 0]

def cpioHeader (name : List UInt8) (size : ℕ) : List UInt8 :=
  let out := (cpioFields name size).foldl (fun out f => out ++ ascii (Hex.padded 8 f))
    (ascii "070701".toList)
  pad4 (out ++ name ++ [0])

def cpio (files : List (List UInt8 × List UInt8)) : List UInt8 :=
  files.foldl (fun out file => out ++ cpioHeader file.1 file.2.length ++ pad4 file.2) [] ++
    cpioHeader (ascii "TRAILER!!!".toList) 0

def buildRootfs (kmod user : List UInt8) : List UInt8 :=
  cpio [(ascii "kmod.ko".toList, kmod), (ascii "user".toList, user)]

/-- A file the archive can hold: its name has no NUL and is not the trailer's, and both lengths fit
a field. -/
structure Storable (file : List UInt8 × List UInt8) : Prop where
  nul_free : 0 ∉ file.1
  ne_trailer : file.1 ≠ trailer
  name_lt : file.1.length < 2 ^ 32 - 1
  data_lt : file.2.length < 2 ^ 32 - 1

def member (file : List UInt8 × List UInt8) : Member := ⟨file.1, fileMode, file.2⟩

variable {name data pre post : List UInt8} {size n : ℕ} {file : List UInt8 × List UInt8}
  {files : List (List UInt8 × List UInt8)}

theorem nextMultipleOf_eq (n : ℕ) : nextMultipleOf n 4 = align n := by
  rw [nextMultipleOf, align]
  split_ifs <;> omega

theorem pad4_eq (data : List UInt8) :
    pad4 data = data ++ List.replicate (align data.length - data.length) 0 := by
  rw [pad4, resize, nextMultipleOf_eq, List.take_of_length_le (align_le _)]

theorem length_pad4 (data : List UInt8) : (pad4 data).length = align data.length := by
  have hle := align_le data.length
  rw [pad4_eq, List.length_append, List.length_replicate]
  omega

theorem cpioHeader_eq (name : List UInt8) (size : ℕ) :
    cpioHeader name size = pad4 (header (cpioFields name size) name) := by
  rw [cpioHeader, header, List.foldl_append_eq_append, List.append_assoc, List.append_assoc]
  rfl

example : (cpioHeader (ascii "user".toList) 5).length = 116 := by decide +kernel

theorem cpioFields_lt (hname : name.length < 2 ^ 32 - 1) (hsize : size < 2 ^ 32) :
    ∀ v ∈ cpioFields name size, v < 2 ^ 32 := by
  intro v hv
  simp only [cpioFields, fileMode, List.mem_cons, List.not_mem_nil, or_false] at hv
  omega

/-- What one turn of the loop appends is read back at any multiple of four. -/
theorem readMember_cpio (post : List UInt8) (hpre : 4 ∣ pre.length) (hnul : 0 ∉ name)
    (hname : name.length < 2 ^ 32 - 1) (hdata : data.length < 2 ^ 32) :
    readMember (pre ++ (cpioHeader name data.length ++ (pad4 data ++ post))) pre.length =
      some (⟨name, fileMode, data⟩,
        (pre ++ (cpioHeader name data.length ++ pad4 data)).length) := by
  have hgap := length_pad4 (header (cpioFields name data.length) name)
  have hgap' := length_pad4 data
  rw [cpioHeader_eq]
  rw [pad4_eq] at hgap hgap'
  rw [pad4_eq, pad4_eq]
  exact readMember_append hpre (cpioFields_lt hname hdata)
    ⟨0, 0, 0, 1, 0, 0, 0, 0, 0, 0, rfl⟩ hnul hgap hgap'

def written (files : List (List UInt8 × List UInt8)) : List UInt8 :=
  files.flatMap fun file => cpioHeader file.1 file.2.length ++ pad4 file.2

theorem cpio_eq (files : List (List UInt8 × List UInt8)) :
    cpio files = written files ++ cpioHeader trailer 0 := by
  simp only [cpio, List.append_assoc, List.foldl_append_eq_append, List.nil_append]
  rfl

theorem length_le_cpio (files : List (List UInt8 × List UInt8)) :
    files.length < (cpio files).length := by
  have hheader (name : List UInt8) (size : ℕ) : 0 < (cpioHeader name size).length := by
    rw [cpioHeader_eq, length_pad4]
    refine Nat.lt_of_lt_of_le ?_ (align_le _)
    simp [header, magic]
  have hfiles : files.length ≤ (written files).length := by
    induction files with
    | nil => exact le_rfl
    | cons file files ih =>
        have hfirst := hheader file.1 file.2.length
        simp only [written, List.flatMap_cons, List.length_cons, List.length_append] at ih ⊢
        omega
  rw [cpio_eq, List.length_append]
  have hlast := hheader trailer 0
  omega

/-- The trailer, at a multiple of four. -/
theorem readMembers_trailer (hpre : 4 ∣ pre.length) :
    readMembers (pre ++ cpioHeader trailer 0) (n + 1) pre.length =
      some ([], (pre ++ cpioHeader trailer 0).length) := by
  have hname : 0 ∉ trailer ∧ trailer.length < 2 ^ 32 - 1 := by decide
  have hdata : ([] : List UInt8).length < 2 ^ 32 := by decide
  have hread := readMember_cpio [] hpre hname.1 hname.2 hdata
  have hempty : pad4 [] = [] := rfl
  rw [hempty, List.length_nil, List.append_nil, List.append_nil] at hread
  simp only [readMembers, hread, if_true]

/-- From any multiple of four on, the files are read back one by one, and then the trailer. -/
theorem readMembers_written (hpre : 4 ∣ pre.length) (h : ∀ file ∈ files, Storable file)
    (hn : files.length < n) :
    readMembers (pre ++ (written files ++ cpioHeader trailer 0)) n pre.length =
      some (files.map member, (pre ++ (written files ++ cpioHeader trailer 0)).length) := by
  induction files generalizing pre n with
  | nil =>
      obtain ⟨n, rfl⟩ := Nat.exists_eq_succ_of_ne_zero (Nat.ne_of_gt hn)
      rw [written, List.flatMap_nil, List.nil_append, readMembers_trailer hpre, List.map_nil]
  | cons file files ih =>
      obtain ⟨n, rfl⟩ := Nat.exists_eq_succ_of_ne_zero (Nat.ne_of_gt (Nat.zero_lt_of_lt hn))
      have hfile := h file List.mem_cons_self
      have hdata : file.2.length < 2 ^ 32 := hfile.data_lt.trans (by decide)
      have hread := readMember_cpio (written files ++ cpioHeader trailer 0) hpre hfile.nul_free
        hfile.name_lt hdata
      -- the loop goes on at a multiple of four
      have hnext : 4 ∣ (pre ++ (cpioHeader file.1 file.2.length ++ pad4 file.2)).length := by
        rw [List.length_append, List.length_append, cpioHeader_eq, length_pad4, length_pad4]
        exact Nat.dvd_add hpre (Nat.dvd_add (dvd_align _) (dvd_align _))
      have hrest := ih hnext (fun f hf => h f (List.mem_cons_of_mem _ hf))
        (Nat.lt_of_succ_lt_succ hn)
      have hwritten : written (file :: files) =
          cpioHeader file.1 file.2.length ++ (pad4 file.2 ++ written files) := by
        rw [written, List.flatMap_cons, List.append_assoc]
        rfl
      simp only [List.append_assoc] at hread hrest
      simp only [hwritten, List.append_assoc, readMembers, hread, hfile.ne_trailer, if_false, hrest,
        Option.map_some, List.map_cons]
      rfl

/-- The archive of any files reads back as these files, up to its end. -/
theorem read_cpio (files : List (List UInt8 × List UInt8)) (h : ∀ file ∈ files, Storable file) :
    Newc.read (cpio files) = some (files.map member, (cpio files).length) := by
  have hstart : 4 ∣ ([] : List UInt8).length := Nat.dvd_zero 4
  have hread := readMembers_written hstart h (length_le_cpio files)
  rw [List.nil_append, ← cpio_eq] at hread
  exact hread

theorem read_buildRootfs_small :
    Newc.read (buildRootfs [127, 69, 76, 70, 2] []) =
      some ([⟨ascii "kmod.ko".toList, fileMode, [127, 69, 76, 70, 2]⟩,
        ⟨ascii "user".toList, fileMode, []⟩], (buildRootfs [127, 69, 76, 70, 2] []).length) := by
  refine read_cpio [(ascii "kmod.ko".toList, [127, 69, 76, 70, 2]), (ascii "user".toList, [])] ?_
  intro file hfile
  simp only [List.mem_cons, List.not_mem_nil, or_false] at hfile
  rcases hfile with rfl | rfl
  · exact ⟨by decide, by decide, by decide, by decide⟩
  · exact ⟨by decide, by decide, by decide, by decide⟩

end KStep.Rootfs
