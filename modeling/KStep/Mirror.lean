import KStep.FileSystem

/-!
# The mirror of the module's sources

`mirror` walks the destination to drop its symlinks and the source to add a symlink for every file,
and calls itself for the directories of both. When it succeeds, what is at a path of the destination
depends on what was there and in the source at that path alone.
-/

namespace KStep.Mirror

open EarlyExit FileSystem

/-- Why a call stops: an error of the system, or it would nest deeper than it may. -/
inductive Stop
  | io (e : IoError)
  | depth
  deriving DecidableEq, Repr

variable {ν α : Type*}

def io (r : Option IoError × Fs ν α) : Option Stop × Fs ν α := (r.1.map .io, r.2)

section Program

variable [DecidableEq ν]

def dropTurn (rec : Path ν → Path ν → Fs ν α → Option Stop × Fs ν α) (src dst : Path ν)
    (fs : Fs ν α) (n : ν) : Option Stop × Fs ν α :=
  match fs.symlinkMetadata (n :: dst) with
  | .error e => (some (.io e), fs)
  | .ok (.link _) => io (fs.removeFile (n :: dst))
  | .ok .dir => rec (n :: src) (n :: dst) fs
  | .ok (.file _) => (none, fs)

def linkTurn (rec : Path ν → Path ν → Fs ν α → Option Stop × Fs ν α) (src dst : Path ν)
    (fs : Fs ν α) (n : ν) : Option Stop × Fs ν α :=
  match fs.symlinkMetadata (n :: src) with
  | .error e => (some (.io e), fs)
  | .ok .dir => rec (n :: src) (n :: dst) fs
  | .ok _ => match fs.symlinkMetadata (n :: dst) with
    | .error _ => io (fs.symlink (n :: src) (n :: dst))
    | .ok _ => (none, fs)

/-- `mirror(src, dst)`, nesting at most `depth` calls. -/
def mirror (list : Fs ν α → Path ν → List ν) :
    (depth : ℕ) → (src dst : Path ν) → Fs ν α → Option Stop × Fs ν α
  | 0, _, _, fs => (some .depth, fs)
  | depth + 1, src, dst, fs => match fs.createDirAll dst with
    | (some e, fs) => (some (.io e), fs)
    | (none, fs) => match fs.readDir list dst with
      | .error e => (some (.io e), fs)
      | .ok names => match stopFold (dropTurn (mirror list depth) src dst) names fs with
        | (some e, fs) => (some e, fs)
        | (none, fs) => match fs.readDir list src with
          | .error e => (some (.io e), fs)
          | .ok names => stopFold (linkTurn (mirror list depth) src dst) names fs

end Program

/-- Every directory of the destination is one of the source, and no directory of the source is a
regular file in the destination. -/
def Fits (fs : Fs ν α) (src dst : Path ν) : Prop :=
  ∀ q, (fs.entry (q ++ dst) = some .dir → fs.entry (q ++ src) = some .dir) ∧
    (fs.entry (q ++ src) = some .dir → ∀ x, fs.entry (q ++ dst) ≠ some (.file x))

/-- What is in the destination afterwards, from what was in the source and in the destination. -/
def mirrored (target : Path ν) :
    Option (Entry ν α) → Option (Entry ν α) → Option (Entry ν α)
  | some .dir, _ => some .dir
  | _, some (.file x) => some (.file x)
  | some _, _ => some (.link target)
  | none, _ => none

/-- What a successful call has found and what it has made. -/
structure Mirrors (fs : Fs ν α) (src dst : Path ν) (fs' : Fs ν α) : Prop where
  source : fs.entry src = some .dir
  fits : Fits fs src dst
  under : ∀ q, fs'.entry (q ++ dst) =
    mirrored (q ++ src) (fs.entry (q ++ src)) (fs.entry (q ++ dst))
  outside : ∀ r, ¬ dst <:+ r → fs'.entry r = fs.entry r

def Placed (fs : Fs ν α) (dst : Path ν) : Prop := ∃ n p, dst = n :: p ∧ fs.entry p = some .dir

def Sound (rec : Path ν → Path ν → Fs ν α → Option Stop × Fs ν α) : Prop :=
  ∀ src dst fs fs', Apart src dst → Placed fs dst → rec src dst fs = (none, fs') →
    Mirrors fs src dst fs'

section Pointwise

variable {s d : Option (Entry ν α)} {t u : Path ν}

theorem mirrored_dir (t : Path ν) (d : Option (Entry ν α)) :
    mirrored t (some .dir) d = some .dir := rfl

theorem mirrored_link (t u : Path ν) (s : Option (Entry ν α)) :
    mirrored t s (some (.link u)) = mirrored t s none := by
  rcases s with _ | _ | x | v <;> rfl

/-- A second mirror makes the same of it. -/
theorem mirrored_idem (t : Path ν) (s d : Option (Entry ν α)) :
    mirrored t s (mirrored t s d) = mirrored t s d := by
  rcases s with _ | _ | x | v <;> rcases d with _ | _ | y | w <;> rfl

theorem eq_dir_of_mirrored (h : mirrored t s d = some .dir) : s = some .dir := by
  rcases s with _ | _ | x | v <;> rcases d with _ | _ | y | w <;> first | rfl | cases h

theorem mirrored_none {e : Entry ν α} (he : e ≠ .dir) :
    mirrored t (some e) none = some (.link t) := by
  rcases e with _ | x | v
  · exact absurd rfl he
  · rfl
  · rfl

theorem mirrored_file {e : Entry ν α} (he : e ≠ .dir) (x : α) :
    mirrored t (some e) (some (.file x)) = some (.file x) := by
  rcases e with _ | y | v
  · exact absurd rfl he
  · rfl
  · rfl

theorem mirrored_ne_link (d : Option (Entry ν α)) : mirrored t none d ≠ some (.link u) := by
  rcases d with _ | _ | x | v <;> rintro ⟨⟩

theorem mirrored_eq_none (hs : s = none) (hd : d = none) : mirrored t s d = none := by
  subst hs hd
  rfl

end Pointwise

variable {list : Fs ν α → Path ν → List ν} {fs fs' g g' base : Fs ν α} {src dst : Path ν} {n : ν}
  {depth : ℕ} {rec : Path ν → Path ν → Fs ν α → Option Stop × Fs ν α}

theorem Fits.congr (hsrc : ∀ q, g.entry (q ++ src) = fs.entry (q ++ src))
    (hdst : ∀ q, g.entry (q ++ dst) = fs.entry (q ++ dst)) :
    Fits g src dst ↔ Fits fs src dst := by
  simp only [Fits, hsrc, hdst]

theorem Fits.cons (h : Fits fs src dst) (n : ν) : Fits fs (n :: src) (n :: dst) := by
  intro q
  have hq := h (q ++ [n])
  simp only [List.append_assoc, List.singleton_append] at hq
  exact hq

theorem not_suffix_source (h : Apart src dst) (q : Path ν) (n : ν) : ¬ dst <:+ q ++ n :: src := by
  have hq := h.not_suffix (q ++ [n])
  rw [List.append_assoc, List.singleton_append] at hq
  exact hq

/-- The turns before have left the source as it was. -/
theorem source_agrees (h : Apart src dst) (hagrees : AgreesAt dst n base g) (q : Path ν) :
    g.entry (q ++ n :: src) = base.entry (q ++ n :: src) :=
  hagrees.outside (not_suffix_source h q n)

/-- A call on one name of both, from what the turns before have left. -/
theorem Sound.turn (hrec : Sound rec) (h : Apart src dst) (hdst : base.entry dst = some .dir)
    (hagrees : AgreesAt dst n base g) (hcall : rec (n :: src) (n :: dst) g = (none, g')) :
    Mirrors g (n :: src) (n :: dst) g' ∧ Fits base (n :: src) (n :: dst) ∧
      ∀ q, g'.entry (q ++ n :: dst) = mirrored (q ++ n :: src) (base.entry (q ++ n :: src))
        (base.entry (q ++ n :: dst)) := by
  have hplaced : Placed g (n :: dst) := ⟨n, dst, rfl, by rw [hagrees.here, hdst]⟩
  have hmirrors := hrec _ _ _ _ (h.cons n) hplaced hcall
  refine ⟨hmirrors, ?_, fun q => ?_⟩
  · exact (Fits.congr (source_agrees h hagrees) hagrees.under).mp hmirrors.fits
  · rw [hmirrors.under, source_agrees h hagrees, hagrees.under]

/-- What the first loop leaves under name `n` of the destination. -/
def cleared (base : Fs ν α) (src dst : Path ν) (n : ν) (q : Path ν) : Option (Entry ν α) :=
  match base.entry (n :: dst) with
  | some (.link _) => none
  | some .dir => mirrored (q ++ n :: src) (base.entry (q ++ n :: src)) (base.entry (q ++ n :: dst))
  | _ => base.entry (q ++ n :: dst)

structure Dropped (base : Fs ν α) (src dst : Path ν) (n : ν) (sub : Path ν → Option (Entry ν α)) :
    Prop where
  fits : base.entry (n :: dst) = some .dir → Fits base (n :: src) (n :: dst)
  sub_eq : ∀ q, sub q = cleared base src dst n q

structure Linked (base : Fs ν α) (src dst : Path ν) (n : ν) (sub : Path ν → Option (Entry ν α)) :
    Prop where
  fits : base.entry (n :: src) = some .dir → Fits base (n :: src) (n :: dst)
  sub_eq : ∀ q, sub q = mirrored (q ++ n :: src) (base.entry (q ++ n :: src))
    (base.entry (q ++ n :: dst))

theorem ne_of_not_suffix {p r : Path ν} (h : ¬ p <:+ r) : r ≠ p := by
  rintro rfl
  exact h (List.suffix_refl r)

theorem io_inv {r : Option IoError × Fs ν α} (h : io r = (none, g')) : r = (none, g') := by
  rcases r with ⟨_ | e, g⟩
  · have hg : g = g' := (Prod.mk.inj h).2
    rw [hg]
  · cases h

section Turns

variable [DecidableEq ν]

theorem dropTurn_sound (hrec : Sound rec) (h : Apart src dst) (hdst : base.entry dst = some .dir)
    (hagrees : AgreesAt dst n base g) (hturn : dropTurn rec src dst g n = (none, g')) :
    Dropped base src dst n (fun q => g'.entry (q ++ n :: dst)) ∧
      ∀ r, ¬ n :: dst <:+ r → g'.entry r = g.entry r := by
  have hentry : g.entry (n :: dst) = base.entry (n :: dst) := hagrees.under []
  rcases hbase : base.entry (n :: dst) with _ | _ | x | t
  · rw [dropTurn, Fs.symlinkMetadata, hentry, hbase] at hturn
    cases hturn
  · rw [dropTurn, Fs.symlinkMetadata, hentry, hbase] at hturn
    obtain ⟨hmirrors, hfits, hunder⟩ := hrec.turn h hdst hagrees hturn
    refine ⟨⟨fun _ => hfits, fun q => ?_⟩, hmirrors.outside⟩
    simp only [cleared, hbase]
    exact hunder q
  · rw [dropTurn, Fs.symlinkMetadata, hentry, hbase] at hturn
    cases hturn
    refine ⟨⟨fun hdir => ?_, fun q => ?_⟩, fun _ _ => rfl⟩
    · rw [hbase] at hdir
      cases hdir
    · simp only [cleared, hbase]
      exact hagrees.under q
  · rw [dropTurn, Fs.symlinkMetadata, hentry, hbase] at hturn
    obtain ⟨g₁, hremove, hupdate⟩ := removeFile_eq (hentry.trans hbase) (by rintro ⟨⟩)
    have heq : g₁ = g' := by
      have hinv := io_inv hturn
      rw [hremove] at hinv
      exact (Prod.mk.inj hinv).2
    subst heq
    refine ⟨⟨fun hdir => ?_, fun q => ?_⟩, fun r hr => ?_⟩
    · rw [hbase] at hdir
      cases hdir
    · simp only [cleared, hbase, hupdate]
      by_cases hq : q = []
      · rw [hq, List.nil_append, Function.update_self]
      · have hlong : q ++ n :: dst ≠ n :: dst := List.append_left_eq_self.not.mpr hq
        rw [Function.update_of_ne hlong, hagrees.under]
        exact entry_below (by rw [hbase]; rintro ⟨⟩) hq
    · rw [hupdate, Function.update_of_ne (ne_of_not_suffix hr)]

theorem linkTurn_eq {e : Entry ν α} (rec : Path ν → Path ν → Fs ν α → Option Stop × Fs ν α)
    (dst : Path ν) (hsrc : g.entry (n :: src) = some e) (he : e ≠ .dir) :
    linkTurn rec src dst g n = match g.symlinkMetadata (n :: dst) with
      | .error _ => io (g.symlink (n :: src) (n :: dst))
      | .ok _ => (none, g) := by
  rcases e with _ | x | t
  · exact absurd rfl he
  · simp only [linkTurn, Fs.symlinkMetadata, hsrc]
  · simp only [linkTurn, Fs.symlinkMetadata, hsrc]

/-- The turn for a file of the source: the first loop has left nothing or a regular file. -/
theorem linkTurn_file {e : Entry ν α} (rec : Path ν → Path ν → Fs ν α → Option Stop × Fs ν α)
    (h : Apart src dst) (hdst : base.entry dst = some .dir)
    (hagrees : AgreesAt dst n base g) (hsrc : base.entry (n :: src) = some e) (he : e ≠ .dir)
    (hclean : base.entry (n :: dst) = none ∨ ∃ x, base.entry (n :: dst) = some (.file x)) :
    ∃ g', linkTurn rec src dst g n = (none, g') ∧
      (∀ q, g'.entry (q ++ n :: dst) = mirrored (q ++ n :: src) (base.entry (q ++ n :: src))
        (base.entry (q ++ n :: dst))) ∧
      ∀ r, ¬ n :: dst <:+ r → g'.entry r = g.entry r := by
  have hentry : g.entry (n :: dst) = base.entry (n :: dst) := hagrees.under []
  have hturn := linkTurn_eq rec dst ((source_agrees h hagrees []).trans hsrc) he
  have hfile : base.entry (n :: src) ≠ some .dir := by
    rw [hsrc]
    rintro ⟨⟩
    exact he rfl
  rcases hclean with hnone | ⟨x, hx⟩
  · obtain ⟨g', hcreate, hupdate⟩ := create_eq (e := .link (n :: src)) (hagrees.here.trans hdst)
      (hentry.trans hnone)
    refine ⟨g', ?_, fun q => ?_, fun r hr => ?_⟩
    · rw [hturn, Fs.symlinkMetadata, hentry, hnone]
      simp only [Fs.symlink, hcreate, io, Option.map_none]
    · rw [hupdate]
      by_cases hq : q = []
      · rw [hq, List.nil_append, List.nil_append, Function.update_self, hsrc, hnone,
          mirrored_none he]
      · have hlong : q ++ n :: dst ≠ n :: dst := List.append_left_eq_self.not.mpr hq
        have hbelow : base.entry (q ++ n :: dst) = none :=
          entry_below (by rw [hnone]; rintro ⟨⟩) hq
        rw [Function.update_of_ne hlong, hagrees.under, hbelow,
          mirrored_eq_none (entry_below hfile hq) rfl]
    · rw [hupdate, Function.update_of_ne (ne_of_not_suffix hr)]
  · refine ⟨g, ?_, fun q => ?_, fun _ _ => rfl⟩
    · rw [hturn, Fs.symlinkMetadata, hentry, hx]
    · rw [hagrees.under]
      by_cases hq : q = []
      · rw [hq, List.nil_append, List.nil_append, hsrc, hx, mirrored_file he]
      · have hbelow : base.entry (q ++ n :: dst) = none :=
          entry_below (by rw [hx]; rintro ⟨⟩) hq
        rw [hbelow, mirrored_eq_none (entry_below hfile hq) rfl]

theorem linkTurn_sound (hrec : Sound rec) (h : Apart src dst) (hdst : base.entry dst = some .dir)
    (hclean : base.entry (n :: src) ≠ some .dir →
      base.entry (n :: dst) = none ∨ ∃ x, base.entry (n :: dst) = some (.file x))
    (hagrees : AgreesAt dst n base g) (hturn : linkTurn rec src dst g n = (none, g')) :
    Linked base src dst n (fun q => g'.entry (q ++ n :: dst)) ∧
      ∀ r, ¬ n :: dst <:+ r → g'.entry r = g.entry r := by
  have hentry : g.entry (n :: src) = base.entry (n :: src) := source_agrees h hagrees []
  rcases hbase : base.entry (n :: src) with _ | e
  · rw [linkTurn, Fs.symlinkMetadata, hentry, hbase] at hturn
    cases hturn
  · by_cases he : e = .dir
    · rw [he] at hbase
      rw [linkTurn, Fs.symlinkMetadata, hentry, hbase] at hturn
      obtain ⟨hmirrors, hfits, hunder⟩ := hrec.turn h hdst hagrees hturn
      exact ⟨⟨fun _ => hfits, hunder⟩, hmirrors.outside⟩
    · have hfile : base.entry (n :: src) ≠ some .dir := by
        rw [hbase]
        rintro ⟨⟩
        exact he rfl
      obtain ⟨g₁, hcall, hunder, hframe⟩ := linkTurn_file rec h hdst hagrees hbase he
        (hclean hfile)
      rw [hcall] at hturn
      cases hturn
      exact ⟨⟨fun hdir => absurd hdir hfile, hunder⟩, hframe⟩

end Turns

end KStep.Mirror
