import KStep.EarlyExit
import Mathlib.Data.Set.Finite.Lattice
import Mathlib.Data.List.Infix

/-!
# A file system

Finitely many paths lead to directories, files and symbolic links, each in a directory. A path lists
its names from the last one up, so what lies under `p` are the paths that end in `p`. Calls answer
with the error of the system, if any, and leave what they have done. Links are taken to lead to no
directory, so no path goes through one.
-/

namespace FileSystem

open EarlyExit

abbrev Path (ν : Type*) := List ν

inductive Entry (ν α : Type*)
  | dir
  | file (data : α)
  | link (target : Path ν)
  deriving DecidableEq

inductive IoError
  | notFound
  | alreadyExists
  | notADirectory
  | isADirectory
  deriving DecidableEq, Repr

@[ext] structure Fs (ν α : Type*) where
  entry : Path ν → Option (Entry ν α)
  root : entry [] = some .dir
  parent : ∀ n p, entry (n :: p) ≠ none → entry p = some .dir
  finite : {p | entry p ≠ none}.Finite

variable {ν α : Type*}

def Fs.isDir (fs : Fs ν α) (p : Path ν) : Bool :=
  match fs.entry p with
  | some .dir => true
  | _ => false

theorem Fs.isDir_iff {fs : Fs ν α} {p : Path ν} : fs.isDir p = true ↔ fs.entry p = some .dir := by
  rw [isDir]
  split <;> simp_all

/-- Why a call finds no directory at `p`: the nearest entry above is one that has no entries, or
lacks the next. -/
def Fs.noDir (fs : Fs ν α) : Path ν → IoError
  | [] => .notFound
  | n :: p => match fs.entry (n :: p) with
    | some .dir => .notFound
    | some _ => .notADirectory
    | none => fs.noDir p

def Fs.symlinkMetadata (fs : Fs ν α) (p : Path ν) : Except IoError (Entry ν α) :=
  match fs.entry p with
  | some e => .ok e
  | none => .error (fs.noDir p)

/-- The names in a directory, as `list` gives them. -/
def Fs.readDir (list : Fs ν α → Path ν → List ν) (fs : Fs ν α) (p : Path ν) :
    Except IoError (List ν) :=
  if fs.isDir p then .ok (list fs p) else .error (fs.noDir p)

def Lists (list : Fs ν α → Path ν → List ν) : Prop :=
  ∀ fs p, (list fs p).Nodup ∧ ∀ n, n ∈ list fs p ↔ fs.entry (n :: p) ≠ none

variable [DecidableEq ν]

def Fs.insert (fs : Fs ν α) (n : ν) (p : Path ν) (e : Entry ν α) (hp : fs.entry p = some .dir)
    (hn : fs.entry (n :: p) = none) : Fs ν α where
  entry := Function.update fs.entry (n :: p) (some e)
  root := by
    rw [Function.update_of_ne (List.cons_ne_nil n p).symm]
    exact fs.root
  parent m r hr := by
    have hrp : fs.entry r = some .dir := by
      by_cases hmr : m :: r = n :: p
      · rw [(List.cons_eq_cons.mp hmr).2]
        exact hp
      · rw [Function.update_of_ne hmr] at hr
        exact fs.parent m r hr
    have hne : r ≠ n :: p := by
      rintro rfl
      rw [hn] at hrp
      cases hrp
    rw [Function.update_of_ne hne]
    exact hrp
  finite := by
    refine (fs.finite.insert (n :: p)).subset fun r hr => ?_
    by_cases hrp : r = n :: p
    · exact Or.inl hrp
    · rw [Set.mem_ofPred_eq, Function.update_of_ne hrp] at hr
      exact Or.inr hr

def Fs.erase (fs : Fs ν α) (n : ν) (p : Path ν) (hn : fs.entry (n :: p) ≠ some .dir) : Fs ν α where
  entry := Function.update fs.entry (n :: p) none
  root := by
    rw [Function.update_of_ne (List.cons_ne_nil n p).symm]
    exact fs.root
  parent m r hr := by
    have hmr : m :: r ≠ n :: p := by
      intro hmr
      rw [hmr, Function.update_self] at hr
      exact hr rfl
    rw [Function.update_of_ne hmr] at hr
    have hrp := fs.parent m r hr
    have hne : r ≠ n :: p := by
      rintro rfl
      exact hn hrp
    rw [Function.update_of_ne hne]
    exact hrp
  finite := by
    refine fs.finite.subset fun r hr => ?_
    by_cases hrp : r = n :: p
    · rw [Set.mem_ofPred_eq, hrp, Function.update_self] at hr
      exact absurd rfl hr
    · rw [Set.mem_ofPred_eq, Function.update_of_ne hrp] at hr
      exact hr

theorem exists_of_lookup_ne_none {table : List (Path ν × Entry ν α)} {p : Path ν}
    (h : table.lookup p ≠ none) : ∃ x ∈ table, x.1 = p := by
  by_contra hnone
  apply h
  rw [List.lookup_eq_none_iff]
  intro x hx
  rw [bne_iff_ne]
  rintro rfl
  exact hnone ⟨x, hx, rfl⟩

def Fs.ofTable (table : List (Path ν × Entry ν α)) (hroot : table.lookup [] = some .dir)
    (hparent : ∀ x ∈ table, x.1 = [] ∨ table.lookup x.1.tail = some .dir) : Fs ν α where
  entry p := table.lookup p
  root := hroot
  parent n p hp := by
    obtain ⟨x, hx, hkey⟩ := exists_of_lookup_ne_none hp
    have hdir := hparent x hx
    rw [hkey] at hdir
    exact hdir.resolve_left (List.cons_ne_nil n p)
  finite := by
    refine ((table.map Prod.fst).finite_toSet).subset fun p hp => ?_
    obtain ⟨x, hx, rfl⟩ := exists_of_lookup_ne_none hp
    exact List.mem_map_of_mem hx

theorem mem_of_ofTable {table : List (Path ν × Entry ν α)} {hroot hparent} {p : Path ν}
    {e : Entry ν α} (h : (Fs.ofTable table hroot hparent).entry p = some e) : (p, e) ∈ table := by
  obtain ⟨l, l', rfl, -⟩ := List.lookup_eq_some_iff.mp h
  exact List.mem_append_right l List.mem_cons_self

def Fs.create (fs : Fs ν α) (e : Entry ν α) : Path ν → Option IoError × Fs ν α
  | [] => (some .alreadyExists, fs)
  | n :: p =>
      if hp : fs.isDir p = true then
        match hn : fs.entry (n :: p) with
        | none => (none, fs.insert n p e (Fs.isDir_iff.mp hp) hn)
        | some _ => (some .alreadyExists, fs)
      else (some (fs.noDir p), fs)

def Fs.mkdir (fs : Fs ν α) (p : Path ν) : Option IoError × Fs ν α := fs.create .dir p

def Fs.symlink (fs : Fs ν α) (target p : Path ν) : Option IoError × Fs ν α :=
  fs.create (.link target) p

def Fs.removeFile (fs : Fs ν α) : Path ν → Option IoError × Fs ν α
  | [] => (some .isADirectory, fs)
  | n :: p => match hn : fs.entry (n :: p) with
    | none => (some (fs.noDir p), fs)
    | some .dir => (some .isADirectory, fs)
    | some (.file _) => (none, fs.erase n p (by rw [hn]; rintro ⟨⟩))
    | some (.link _) => (none, fs.erase n p (by rw [hn]; rintro ⟨⟩))

def Fs.createDirAll (fs : Fs ν α) : Path ν → Option IoError × Fs ν α
  | [] => (none, fs)
  | n :: p => match fs.mkdir (n :: p) with
    | (none, fs') => (none, fs')
    | (some .notFound, _) => match fs.createDirAll p with
      | (some e, fs') => (some e, fs')
      | (none, fs') => match fs'.mkdir (n :: p) with
        | (none, fs'') => (none, fs'')
        | (some e, fs'') => if fs''.isDir (n :: p) then (none, fs'') else (some e, fs'')
    | (some e, fs') => if fs'.isDir (n :: p) then (none, fs') else (some e, fs')

section Calls

variable {fs fs' : Fs ν α} {n : ν} {p q : Path ν} {e : Entry ν α}

theorem create_eq (hp : fs.entry p = some .dir) (hn : fs.entry (n :: p) = none) :
    ∃ fs', fs.create e (n :: p) = (none, fs') ∧
      fs'.entry = Function.update fs.entry (n :: p) (some e) := by
  refine ⟨fs.insert n p e hp hn, ?_, rfl⟩
  rw [Fs.create, dif_pos (Fs.isDir_iff.mpr hp)]
  split
  · rfl
  · rename_i heq
    rw [hn] at heq
    cases heq

theorem create_exists (hp : fs.entry p = some .dir) (hn : fs.entry (n :: p) ≠ none) :
    fs.create e (n :: p) = (some .alreadyExists, fs) := by
  rw [Fs.create, dif_pos (Fs.isDir_iff.mpr hp)]
  split
  · rename_i heq
    exact absurd heq hn
  · rfl

theorem removeFile_eq (hn : fs.entry (n :: p) = some e) (hdir : e ≠ .dir) :
    ∃ fs', fs.removeFile (n :: p) = (none, fs') ∧
      fs'.entry = Function.update fs.entry (n :: p) none := by
  refine ⟨fs.erase n p (by rw [hn]; rintro ⟨⟩; exact hdir rfl), ?_, rfl⟩
  rw [Fs.removeFile]
  split
  · rename_i heq
    rw [hn] at heq
    cases heq
  · rename_i heq
    rw [hn] at heq
    cases heq
    exact absurd rfl hdir
  · rfl
  · rfl

/-- In a directory, `create_dir_all` comes down to one `mkdir`. -/
theorem createDirAll_eq (hp : fs.entry p = some .dir)
    (hn : fs.entry (n :: p) = none ∨ fs.entry (n :: p) = some .dir) :
    ∃ fs', fs.createDirAll (n :: p) = (none, fs') ∧
      fs'.entry = Function.update fs.entry (n :: p) (some .dir) := by
  rcases hn with hn | hn
  · obtain ⟨fs', hcreate, hentry⟩ := create_eq (e := .dir) hp hn
    exact ⟨fs', by simp only [Fs.createDirAll, Fs.mkdir, hcreate], hentry⟩
  · refine ⟨fs, ?_, by rw [← hn, Function.update_eq_self]⟩
    have hexists := create_exists (e := .dir) hp (by rw [hn]; rintro ⟨⟩)
    simp only [Fs.createDirAll, Fs.mkdir, hexists, Fs.isDir_iff.mpr hn, if_true]

theorem createDirAll_inv (hp : fs.entry p = some .dir)
    (h : fs.createDirAll (n :: p) = (none, fs')) :
    fs.entry (n :: p) = none ∨ fs.entry (n :: p) = some .dir := by
  by_cases hn : fs.entry (n :: p) = none
  · exact Or.inl hn
  · have hexists := create_exists (e := .dir) hp hn
    simp only [Fs.createDirAll, Fs.mkdir, hexists] at h
    split_ifs at h with hdir
    · exact Or.inr (Fs.isDir_iff.mp hdir)
    · cases h

end Calls

section Subtrees

omit [DecidableEq ν]

variable {fs : Fs ν α} {n m : ν} {p q r : Path ν}

/-- What has something under it is a directory. -/
theorem entry_above (h : fs.entry (q ++ p) ≠ none) (hq : q ≠ []) : fs.entry p = some .dir := by
  induction q with
  | nil => exact absurd rfl hq
  | cons n q ih =>
      have hdir := fs.parent n (q ++ p) h
      by_cases hnil : q = []
      · rw [hnil] at hdir
        exact hdir
      · exact ih (by rw [hdir]; rintro ⟨⟩) hnil

theorem entry_below (h : fs.entry p ≠ some .dir) (hq : q ≠ []) : fs.entry (q ++ p) = none := by
  by_contra hne
  exact h (entry_above hne hq)

theorem exists_depth (fs : Fs ν α) : ∃ d, ∀ p, fs.entry p ≠ none → p.length < d := by
  obtain ⟨d, hd⟩ := (fs.finite.image List.length).bddAbove
  refine ⟨d + 1, fun p hp => Nat.lt_succ_of_le (hd ⟨p, hp, rfl⟩)⟩

theorem not_suffix_self (n : ν) (p : Path ν) : ¬ n :: p <:+ p := by
  intro h
  have hlen := h.length_le
  rw [List.length_cons] at hlen
  omega

/-- The subtrees of two names are apart. -/
theorem eq_of_suffix (hn : n :: p <:+ r) (hm : m :: p <:+ r) : n = m := by
  rcases List.suffix_or_suffix_of_suffix hn hm with h | h
  · exact (List.cons_eq_cons.mp (h.eq_of_length rfl)).1
  · exact (List.cons_eq_cons.mp (h.eq_of_length rfl)).1.symm

/-- Neither of two paths is under the other. -/
def Apart (p r : Path ν) : Prop := ¬ p <:+ r ∧ ¬ r <:+ p

theorem Apart.not_suffix (h : Apart p r) (q : Path ν) : ¬ r <:+ q ++ p := by
  intro hr
  rcases List.suffix_or_suffix_of_suffix hr (List.suffix_append q p) with hrp | hpr
  · exact h.2 hrp
  · exact h.1 hpr

theorem Apart.cons (h : Apart p r) (n : ν) : Apart (n :: p) (n :: r) := by
  have haux {p r : Path ν} (h : ¬ p <:+ r) : ¬ n :: p <:+ n :: r := by
    intro hcons
    rcases List.suffix_cons_iff.mp hcons with heq | hsuf
    · rw [(List.cons_eq_cons.mp heq).2] at h
      exact h (List.suffix_refl r)
    · exact h ((List.suffix_cons n p).trans hsuf)
  exact ⟨haux h.1, haux h.2⟩

end Subtrees

section Loops

omit [DecidableEq ν]

variable {ε : Type*} {body : Fs ν α → ν → Option ε × Fs ν α} {p : Path ν} {base g g' : Fs ν α}
  {names : List ν} {P : ν → (Path ν → Option (Entry ν α)) → Prop}

def AgreesAt (p : Path ν) (n : ν) (base g : Fs ν α) : Prop :=
  ∀ r, (∀ m, m ≠ n → ¬ m :: p <:+ r) → g.entry r = base.entry r

def AgreesOn (p : Path ν) (names : List ν) (base g : Fs ν α) : Prop :=
  ∀ r, (∀ m, m ∉ names → ¬ m :: p <:+ r) → g.entry r = base.entry r

theorem AgreesAt.under {n : ν} (h : AgreesAt p n base g) (q : Path ν) :
    g.entry (q ++ n :: p) = base.entry (q ++ n :: p) :=
  h _ fun _ hm hsuf => hm (eq_of_suffix hsuf (List.suffix_append q (n :: p)))

theorem AgreesAt.outside {n : ν} (h : AgreesAt p n base g) {r : Path ν} (hr : ¬ p <:+ r) :
    g.entry r = base.entry r :=
  h r fun m _ hsuf => hr ((List.suffix_cons m p).trans hsuf)

theorem AgreesAt.here {n : ν} (h : AgreesAt p n base g) : g.entry p = base.entry p :=
  h p fun m _ => not_suffix_self m p

theorem AgreesOn.refl (p : Path ν) (names : List ν) (g : Fs ν α) : AgreesOn p names g g :=
  fun _ _ => rfl

theorem AgreesOn.head {n : ν} (h : AgreesOn p (n :: names) base g) : AgreesAt p n base g := by
  intro r hr
  exact h r fun m hm => hr m (List.ne_of_not_mem_cons hm)

/-- A turn that stays under its own name leaves the other names for the next turns. -/
theorem AgreesOn.tail {n : ν} (h : AgreesOn p (n :: names) base g) (hn : n ∉ names)
    (hframe : ∀ r, ¬ n :: p <:+ r → g'.entry r = g.entry r) : AgreesOn p names base g' := by
  intro r hr
  rw [hframe r (hr n hn)]
  exact h r fun m hm => hr m (List.not_mem_of_not_mem_cons hm)

/-- A loop over the names of a directory whose turns stay each under its own name: what a turn
makes there is there at the end. -/
theorem stopFold_turns
    (hturn : ∀ n ∈ names, ∀ g g', AgreesAt p n base g → body g n = (none, g') →
      P n (fun q => g'.entry (q ++ n :: p)) ∧ ∀ r, ¬ n :: p <:+ r → g'.entry r = g.entry r)
    (hnodup : names.Nodup) (hstart : AgreesOn p names base g)
    (h : stopFold body names g = (none, g')) :
    (∀ n ∈ names, P n fun q => g'.entry (q ++ n :: p)) ∧
      ∀ r, (∀ n ∈ names, ¬ n :: p <:+ r) → g'.entry r = g.entry r := by
  induction names generalizing g with
  | nil =>
      cases h
      exact ⟨fun n hn => absurd hn List.not_mem_nil, fun r _ => rfl⟩
  | cons n names ih =>
      obtain ⟨hn, hnodup⟩ := List.nodup_cons.mp hnodup
      rcases hbody : body g n with ⟨_ | e, t⟩
      · rw [stopFold_cons_ok hbody] at h
        obtain ⟨hP, hframe⟩ := hturn n List.mem_cons_self g t hstart.head hbody
        obtain ⟨hrest, hkeep⟩ := ih (fun m hm => hturn m (List.mem_cons_of_mem n hm)) hnodup
          (hstart.tail hn hframe) h
        refine ⟨fun m hm => ?_, fun r hr => ?_⟩
        · rcases List.mem_cons.mp hm with rfl | hm
          · have hlater (q : Path ν) : g'.entry (q ++ m :: p) = t.entry (q ++ m :: p) := by
              apply hkeep
              intro k hk hsuf
              exact hn (eq_of_suffix hsuf (List.suffix_append q (m :: p)) ▸ hk)
            simp only [hlater]
            exact hP
          · exact hrest m hm
        · rw [hkeep r fun m hm => hr m (List.mem_cons_of_mem n hm),
            hframe r (hr n List.mem_cons_self)]
      · rw [stopFold_cons_error hbody] at h
        cases h

/-- Such a loop goes to its end when every turn does. -/
theorem stopFold_turns_ok
    (hturn : ∀ n ∈ names, ∀ g, AgreesAt p n base g →
      ∃ g', body g n = (none, g') ∧ ∀ r, ¬ n :: p <:+ r → g'.entry r = g.entry r)
    (hnodup : names.Nodup) (hstart : AgreesOn p names base g) :
    ∃ g', stopFold body names g = (none, g') := by
  induction names generalizing g with
  | nil => exact ⟨g, rfl⟩
  | cons n names ih =>
      obtain ⟨hn, hnodup⟩ := List.nodup_cons.mp hnodup
      obtain ⟨t, hbody, hframe⟩ := hturn n List.mem_cons_self g hstart.head
      rw [stopFold_cons_ok hbody]
      exact ih (fun m hm => hturn m (List.mem_cons_of_mem n hm)) hnodup (hstart.tail hn hframe)

end Loops

end FileSystem
