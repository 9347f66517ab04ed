import KStep.MirrorSound

/-!
# When the mirror converges

Between two trees that fit, every call of `mirror` returns once it may nest as deep as the trees go,
and a second mirror changes nothing. A directory of the destination that the source no longer has
stops the call: its symlinks are dropped, and then there is no source directory to read.
-/

namespace KStep.Mirror

open EarlyExit FileSystem

variable {ν α : Type*} {list : Fs ν α → Path ν → List ν} {fs fs' base g : Fs ν α}
  {src dst : Path ν} {n : ν} {depth : ℕ}

/-- Neither tree goes as deep as `depth`. -/
def Shallow (fs : Fs ν α) (src dst : Path ν) (depth : ℕ) : Prop :=
  ∀ q, fs.entry (q ++ src) ≠ none ∨ fs.entry (q ++ dst) ≠ none → q.length < depth

structure Ready (fs : Fs ν α) (src dst : Path ν) (depth : ℕ) : Prop where
  placed : Placed fs dst
  source : fs.entry src = some .dir
  free : fs.entry dst = none ∨ fs.entry dst = some .dir
  fits : Fits fs src dst
  shallow : Shallow fs src dst depth

theorem Shallow.cons (h : Shallow fs src dst (depth + 1)) (n : ν) :
    Shallow fs (n :: src) (n :: dst) depth := by
  intro q hq
  have hlen := h (q ++ [n])
  simp only [List.append_assoc, List.singleton_append, List.length_append,
    List.length_singleton] at hlen
  have hlt := hlen hq
  omega

theorem Shallow.congr (hsrc : ∀ q, g.entry (q ++ src) = fs.entry (q ++ src))
    (hdst : ∀ q, g.entry (q ++ dst) = fs.entry (q ++ dst)) (h : Shallow fs src dst depth) :
    Shallow g src dst depth := by
  intro q hq
  rw [hsrc, hdst] at hq
  exact h q hq

/-- What the first loop leaves still fits. -/
theorem fits_cleared (hfits : Fits base (n :: src) (n :: dst))
    (hsource : ∀ q, g.entry (q ++ n :: src) = base.entry (q ++ n :: src))
    (hsub : ∀ q, g.entry (q ++ n :: dst) = cleared base src dst n q) :
    Fits g (n :: src) (n :: dst) := by
  intro q
  rw [hsource, hsub]
  rcases hbase : base.entry (n :: dst) with _ | _ | x | t
  · simp only [cleared, hbase]
    exact hfits q
  · simp only [cleared, hbase]
    refine ⟨eq_dir_of_mirrored, fun hdir x => ?_⟩
    rw [hdir, mirrored_dir]
    rintro ⟨⟩
  · simp only [cleared, hbase]
    exact hfits q
  · simp only [cleared, hbase]
    exact ⟨fun h => (by cases h), fun _ x => (by rintro ⟨⟩)⟩

theorem shallow_cleared (h : Shallow base (n :: src) (n :: dst) depth)
    (hsource : ∀ q, g.entry (q ++ n :: src) = base.entry (q ++ n :: src))
    (hsub : ∀ q, g.entry (q ++ n :: dst) = cleared base src dst n q) :
    Shallow g (n :: src) (n :: dst) depth := by
  intro q hq
  apply h
  rw [hsource, hsub] at hq
  by_contra hnone
  rw [not_or, not_not, not_not] at hnone
  rcases hq with hq | hq
  · exact hq hnone.1
  · apply hq
    rcases hbase : base.entry (n :: dst) with _ | _ | x | t
    · simp only [cleared, hbase, hnone.2]
    · simp only [cleared, hbase, mirrored_eq_none hnone.1 hnone.2]
    · simp only [cleared, hbase, hnone.2]
    · simp only [cleared, hbase]

/-- A directory of the source finds its name free or a directory. -/
theorem free_cleared (hfits : Fits base (n :: src) (n :: dst))
    (hdir : base.entry (n :: src) = some .dir)
    (hsub : g.entry (n :: dst) = cleared base src dst n []) :
    g.entry (n :: dst) = none ∨ g.entry (n :: dst) = some .dir := by
  rw [hsub]
  rcases hbase : base.entry (n :: dst) with _ | _ | x | t
  · left
    simp only [cleared, hbase, List.nil_append]
  · right
    simp only [cleared, hbase, List.nil_append, hdir, mirrored_dir]
  · exact absurd hbase ((hfits []).2 hdir x)
  · left
    simp only [cleared, hbase]

/-- The destination directory itself is there when the loops start. -/
theorem Ready.created (h : Apart src dst) (hready : Ready fs src dst (depth + 1))
    (hdst : base.entry dst = some .dir) (hother : ∀ r, r ≠ dst → base.entry r = fs.entry r) :
    base.entry src = some .dir ∧ Fits base src dst ∧ Shallow base src dst (depth + 1) := by
  have hsource (q : Path ν) : base.entry (q ++ src) = fs.entry (q ++ src) := by
    apply hother
    intro heq
    exact h.not_suffix q (heq ▸ List.suffix_refl dst)
  have hunder (q : Path ν) (hq : q ≠ []) : base.entry (q ++ dst) = fs.entry (q ++ dst) :=
    hother _ fun heq => hq (List.append_left_eq_self.mp heq)
  have hsrc : base.entry src = some .dir := (hsource []).trans hready.source
  refine ⟨hsrc, fun q => ?_, fun q hq => ?_⟩
  · by_cases hnil : q = []
    · rw [hnil, List.nil_append, List.nil_append, hsrc, hdst]
      exact ⟨fun _ => rfl, fun _ x => (by rintro ⟨⟩)⟩
    · rw [hsource, hunder q hnil]
      exact hready.fits q
  · by_cases hnil : q = []
    · rw [hnil]
      exact Nat.succ_pos depth
    · rw [hsource, hunder q hnil] at hq
      exact hready.shallow q hq

theorem exists_shallow (fs : Fs ν α) (src dst : Path ν) : ∃ depth, Shallow fs src dst depth := by
  obtain ⟨depth, hdepth⟩ := exists_depth fs
  refine ⟨depth, fun q hq => ?_⟩
  rcases hq with hq | hq
  · have hlen := hdepth _ hq
    rw [List.length_append] at hlen
    omega
  · have hlen := hdepth _ hq
    rw [List.length_append] at hlen
    omega

theorem Shallow.mono {depth' : ℕ} (h : Shallow fs src dst depth) (hle : depth ≤ depth') :
    Shallow fs src dst depth' :=
  fun q hq => (h q hq).trans_le hle

/-- There is one mirror of two trees. -/
theorem Mirrors.unique (h : Mirrors fs src dst fs') (h' : Mirrors fs src dst g) : fs' = g := by
  apply Fs.ext
  funext r
  by_cases hr : dst <:+ r
  · obtain ⟨q, rfl⟩ := hr
    rw [h.under, h'.under]
  · rw [h.outside r hr, h'.outside r hr]

/-- The mirror of a mirror is the mirror. -/
theorem Mirrors.again (h : Apart src dst) (hmirrors : Mirrors fs src dst fs') :
    Mirrors fs' src dst fs' := by
  have hsource (q : Path ν) : fs'.entry (q ++ src) = fs.entry (q ++ src) :=
    hmirrors.outside _ (h.not_suffix q)
  refine ⟨(hsource []).trans hmirrors.source, fun q => ?_, fun q => ?_, fun _ _ => rfl⟩
  · rw [hsource, hmirrors.under]
    refine ⟨eq_dir_of_mirrored, fun hdir x => ?_⟩
    rw [hdir, mirrored_dir]
    rintro ⟨⟩
  · rw [hsource, hmirrors.under, mirrored_idem]

theorem Mirrors.dir (hmirrors : Mirrors fs src dst fs') : fs'.entry dst = some .dir := by
  have hunder := hmirrors.under []
  rw [List.nil_append, List.nil_append, hmirrors.source, mirrored_dir] at hunder
  exact hunder

theorem Mirrors.linked {e : Entry ν α} {q : Path ν} (hmirrors : Mirrors fs src dst fs')
    (he : fs.entry (q ++ src) = some e) (hfile : e ≠ .dir) :
    fs'.entry (q ++ dst) = some (.link (q ++ src)) ∨
      ∃ x, fs.entry (q ++ dst) = some (.file x) ∧ fs'.entry (q ++ dst) = some (.file x) := by
  rw [hmirrors.under, he]
  rcases hentry : fs.entry (q ++ dst) with _ | _ | x | t
  · exact Or.inl (mirrored_none hfile)
  · exact absurd (Option.some.inj (he.symm.trans ((hmirrors.fits q).1 hentry))) hfile
  · exact Or.inr ⟨x, rfl, mirrored_file hfile x⟩
  · rw [mirrored_link]
    exact Or.inl (mirrored_none hfile)

theorem Mirrors.link_source {q t : Path ν} (hmirrors : Mirrors fs src dst fs')
    (hlink : fs'.entry (q ++ dst) = some (.link t)) :
    ∃ e, fs.entry (q ++ src) = some e ∧ e ≠ .dir := by
  rw [hmirrors.under] at hlink
  rcases hentry : fs.entry (q ++ src) with _ | e
  · rw [hentry] at hlink
    exact absurd hlink (mirrored_ne_link _)
  · refine ⟨e, rfl, ?_⟩
    rintro rfl
    rw [hentry, mirrored_dir] at hlink
    cases hlink

theorem Mirrors.file {q : Path ν} {x : α} (hmirrors : Mirrors fs src dst fs')
    (hx : fs.entry (q ++ dst) = some (.file x)) : fs'.entry (q ++ dst) = some (.file x) := by
  rw [hmirrors.under, hx]
  rcases hentry : fs.entry (q ++ src) with _ | e
  · rfl
  · apply mirrored_file
    rintro rfl
    exact (hmirrors.fits q).2 hentry x hx

theorem placed_of_dir (h : Apart src dst) (hdst : fs.entry dst = some .dir) : Placed fs dst := by
  cases dst with
  | nil => exact absurd List.nil_suffix h.2
  | cons n p => exact ⟨n, p, rfl, fs.parent n p (by rw [hdst]; rintro ⟨⟩)⟩

/-- The turns before have changed nothing that the call for `n` needs. -/
theorem Ready.agrees (hready : Ready base (n :: src) (n :: dst) depth) (h : Apart src dst)
    (hagrees : AgreesAt dst n base g) : Ready g (n :: src) (n :: dst) depth := by
  obtain ⟨m, p, heq, hp⟩ := hready.placed
  cases heq
  have hentry : g.entry (n :: dst) = base.entry (n :: dst) := hagrees.under []
  exact
    { placed := ⟨n, dst, rfl, hagrees.here.trans hp⟩
      source := (source_agrees h hagrees []).trans hready.source
      free := by
        rw [hentry]
        exact hready.free
      fits := (Fits.congr (source_agrees h hagrees) hagrees.under).mpr hready.fits
      shallow := hready.shallow.congr (source_agrees h hagrees) hagrees.under }

section Program

variable [DecidableEq ν]

/-- The first loop meets directories that both trees have. -/
theorem dropLoop_ok (hlist : Lists list) (h : Apart src dst)
    (ih : ∀ g : Fs ν α, ∀ n, Ready g (n :: src) (n :: dst) depth →
      ∃ g', mirror list depth (n :: src) (n :: dst) g = (none, g'))
    (hdst : base.entry dst = some .dir) (hfits : Fits base src dst)
    (hshallow : Shallow base src dst (depth + 1)) :
    ∃ g, stopFold (dropTurn (mirror list depth) src dst) (list base dst) base = (none, g) := by
  have hturn (n : ν) (hn : n ∈ list base dst) (g : Fs ν α) (hagrees : AgreesAt dst n base g) :
      ∃ g', dropTurn (mirror list depth) src dst g n = (none, g') := by
    have hentry : g.entry (n :: dst) = base.entry (n :: dst) := hagrees.under []
    rcases hbase : base.entry (n :: dst) with _ | _ | x | t
    · exact absurd hbase (((hlist base dst).2 n).mp hn)
    · have hready : Ready base (n :: src) (n :: dst) depth :=
        { placed := ⟨n, dst, rfl, hdst⟩
          source := (hfits.cons n []).1 hbase
          free := Or.inr hbase
          fits := hfits.cons n
          shallow := hshallow.cons n }
      obtain ⟨g', hcall⟩ := ih g n (hready.agrees h hagrees)
      refine ⟨g', ?_⟩
      rw [dropTurn, Fs.symlinkMetadata, hentry, hbase]
      exact hcall
    · refine ⟨g, ?_⟩
      rw [dropTurn, Fs.symlinkMetadata, hentry, hbase]
    · obtain ⟨g', hremove, -⟩ := removeFile_eq (hentry.trans hbase) (by rintro ⟨⟩)
      refine ⟨g', ?_⟩
      rw [dropTurn, Fs.symlinkMetadata, hentry, hbase]
      simp only [hremove, io, Option.map_none]
  refine stopFold_turns_ok ?_ (hlist base dst).1 (AgreesOn.refl dst _ base)
  intro n hn g hagrees
  obtain ⟨g', hcall⟩ := hturn n hn g hagrees
  exact ⟨g', hcall, (dropTurn_sound (mirror_sound hlist depth) h hdst hagrees hcall).2⟩

/-- The second loop finds the name of a directory free or a directory. -/
theorem linkLoop_ok (hlist : Lists list) (h : Apart src dst)
    (ih : ∀ g : Fs ν α, ∀ n, Ready g (n :: src) (n :: dst) depth →
      ∃ g', mirror list depth (n :: src) (n :: dst) g = (none, g'))
    (hdst : base.entry dst = some .dir)
    (hclean : ∀ n, base.entry (n :: src) ≠ some .dir →
      base.entry (n :: dst) = none ∨ ∃ x, base.entry (n :: dst) = some (.file x))
    (hdirs : ∀ n, base.entry (n :: src) = some .dir → Ready base (n :: src) (n :: dst) depth) :
    ∃ g, stopFold (linkTurn (mirror list depth) src dst) (list base src) base = (none, g) := by
  have hturn (n : ν) (hn : n ∈ list base src) (g : Fs ν α) (hagrees : AgreesAt dst n base g) :
      ∃ g', linkTurn (mirror list depth) src dst g n = (none, g') := by
    have hentry : g.entry (n :: src) = base.entry (n :: src) := source_agrees h hagrees []
    rcases hbase : base.entry (n :: src) with _ | e
    · exact absurd hbase (((hlist base src).2 n).mp hn)
    · by_cases he : e = .dir
      · subst he
        obtain ⟨g', hcall⟩ := ih g n ((hdirs n hbase).agrees h hagrees)
        refine ⟨g', ?_⟩
        rw [linkTurn, Fs.symlinkMetadata, hentry, hbase]
        exact hcall
      · have hfile : base.entry (n :: src) ≠ some .dir := by
          rw [hbase]
          rintro ⟨⟩
          exact he rfl
        obtain ⟨g', hcall, -⟩ := linkTurn_file (mirror list depth) h hdst hagrees hbase he
          (hclean n hfile)
        exact ⟨g', hcall⟩
  refine stopFold_turns_ok ?_ (hlist base src).1 (AgreesOn.refl dst _ base)
  intro n hn g hagrees
  obtain ⟨g', hcall⟩ := hturn n hn g hagrees
  exact ⟨g', hcall,
    (linkTurn_sound (mirror_sound hlist depth) h hdst (hclean n) hagrees hcall).2⟩

/-- Between trees that fit, a call that may nest deep enough succeeds. -/
theorem mirror_ok (hlist : Lists list) (h : Apart src dst) (hready : Ready fs src dst depth) :
    ∃ fs', mirror list depth src dst fs = (none, fs') := by
  induction depth generalizing src dst fs with
  | zero =>
      have hlt := hready.shallow [] (Or.inl (by rw [List.nil_append, hready.source]; rintro ⟨⟩))
      exact absurd hlt (Nat.not_lt_zero _)
  | succ depth ih =>
      have hnext (g : Fs ν α) (n : ν) (hg : Ready g (n :: src) (n :: dst) depth) := ih (h.cons n) hg
      obtain ⟨fs₁, hcreate, hentry⟩ : ∃ fs₁, fs.createDirAll dst = (none, fs₁) ∧
          fs₁.entry = Function.update fs.entry dst (some .dir) := by
        obtain ⟨n, p, rfl, hp⟩ := hready.placed
        exact createDirAll_eq hp hready.free
      have hdst : fs₁.entry dst = some .dir := by
        rw [hentry, Function.update_self]
      have hother (r : Path ν) (hr : r ≠ dst) : fs₁.entry r = fs.entry r := by
        rw [hentry, Function.update_of_ne hr]
      obtain ⟨hsrc, hfits, hshallow⟩ := hready.created h hdst hother
      obtain ⟨g, hdrop⟩ := dropLoop_ok hlist h hnext hdst hfits hshallow
      obtain ⟨hdropped, hout, hgdst⟩ := dropLoop_sound hlist (mirror_sound hlist depth) h hdst hdrop
      have hsource (n : ν) (q : Path ν) : g.entry (q ++ n :: src) = fs₁.entry (q ++ n :: src) :=
        hout _ (not_suffix_source h q n)
      have hclean (n : ν) (hn : g.entry (n :: src) ≠ some .dir) :=
        (hdropped n).clean fun hdir => hn ((hsource n []).trans hdir)
      have hdirs (n : ν) (hn : g.entry (n :: src) = some .dir) :
          Ready g (n :: src) (n :: dst) depth :=
        { placed := ⟨n, dst, rfl, hgdst⟩
          source := hn
          free := free_cleared (hfits.cons n) ((hsource n []).symm.trans hn)
            ((hdropped n).sub_eq [])
          fits := fits_cleared (hfits.cons n) (hsource n) (hdropped n).sub_eq
          shallow := shallow_cleared (hshallow.cons n) (hsource n) (hdropped n).sub_eq }
      obtain ⟨fs', hlink⟩ := linkLoop_ok hlist h hnext hgdst hclean hdirs
      exact ⟨fs', (mirror_eq hcreate hdst hdrop ((hout src h.2).trans hsrc)).trans hlink⟩

def Returns (list : Fs ν α → Path ν → List ν) (src dst : Path ν) (fs fs' : Fs ν α) : Prop :=
  ∃ depth₀, ∀ depth, depth₀ ≤ depth → mirror list depth src dst fs = (none, fs')

/-- The mirror of `src` in `dst` succeeds; every file of the source has its symlink there or a
regular file that was there before, there is no other symlink, regular files are as they were, and
mirroring again changes nothing. -/
def Converges (list : Fs ν α → Path ν → List ν) (src dst : Path ν) (fs : Fs ν α) : Prop :=
  ∃ fs', Returns list src dst fs fs' ∧
    (∀ q e, fs.entry (q ++ src) = some e → e ≠ .dir →
      fs'.entry (q ++ dst) = some (.link (q ++ src)) ∨
      ∃ x, fs.entry (q ++ dst) = some (.file x) ∧ fs'.entry (q ++ dst) = some (.file x)) ∧
    (∀ q t, fs'.entry (q ++ dst) = some (.link t) →
      ∃ e, fs.entry (q ++ src) = some e ∧ e ≠ .dir) ∧
    (∀ q x, fs.entry (q ++ dst) = some (.file x) → fs'.entry (q ++ dst) = some (.file x)) ∧
    Returns list src dst fs' fs'

/-- Trees that fit are mirrored, from some depth on always the same way. -/
theorem exists_returns (hlist : Lists list) (h : Apart src dst) (hplaced : Placed fs dst)
    (hsrc : fs.entry src = some .dir) (hfree : fs.entry dst = none ∨ fs.entry dst = some .dir)
    (hfits : Fits fs src dst) : ∃ fs', Returns list src dst fs fs' ∧ Mirrors fs src dst fs' := by
  obtain ⟨depth₀, hshallow⟩ := exists_shallow fs src dst
  have hready (depth : ℕ) (hle : depth₀ ≤ depth) : Ready fs src dst depth :=
    ⟨hplaced, hsrc, hfree, hfits, hshallow.mono hle⟩
  obtain ⟨fs', hcall⟩ := mirror_ok hlist h (hready depth₀ le_rfl)
  have hmirrors := mirror_sound hlist depth₀ src dst fs fs' h hplaced hcall
  refine ⟨fs', ⟨depth₀, fun depth hle => ?_⟩, hmirrors⟩
  obtain ⟨g, hcall'⟩ := mirror_ok hlist h (hready depth hle)
  have hsame := hmirrors.unique (mirror_sound hlist depth src dst fs g h hplaced hcall')
  rw [hcall', hsame]

theorem Converges.fits (hlist : Lists list) (h : Apart src dst) (hdst : fs.entry dst = some .dir)
    (hconverges : Converges list src dst fs) : Fits fs src dst := by
  obtain ⟨fs', ⟨depth, hcall⟩, -⟩ := hconverges
  exact (mirror_sound hlist depth src dst fs fs' h (placed_of_dir h hdst)
    (hcall depth le_rfl)).fits

/-- The mirror converges exactly when every directory of the destination is one of the source and no
directory of the source is a regular file in the destination. -/
theorem converges_iff (hlist : Lists list) (h : Apart src dst) (hsrc : fs.entry src = some .dir)
    (hdst : fs.entry dst = some .dir) : Converges list src dst fs ↔ Fits fs src dst := by
  constructor
  · exact Converges.fits hlist h hdst
  · intro hfits
    obtain ⟨fs', hreturns, hmirrors⟩ :=
      exists_returns hlist h (placed_of_dir h hdst) hsrc (Or.inr hdst) hfits
    have hagain := hmirrors.again h
    obtain ⟨fs'', hreturns', hmirrors'⟩ := exists_returns hlist h (placed_of_dir h hmirrors.dir)
      hagain.source (Or.inr hmirrors.dir) hagain.fits
    have hsame : fs'' = fs' := hmirrors'.unique hagain
    rw [hsame] at hreturns'
    exact ⟨fs', hreturns, fun q e => hmirrors.linked, fun q t => hmirrors.link_source,
      fun q x => hmirrors.file, hreturns'⟩

end Program

inductive Name
  | kmod | older | build | checkers | pelt
  deriving DecidableEq

def Name.all : List Name := [.kmod, .older, .build, .checkers, .pelt]

def listing (fs : Fs Name Unit) (p : Path Name) : List Name :=
  Name.all.filter fun n => (fs.entry (n :: p)).isSome

theorem lists_listing : Lists listing := by
  intro fs p
  have hnodup : Name.all.Nodup := by decide
  refine ⟨hnodup.filter _, fun n => ?_⟩
  have hall : n ∈ Name.all := by cases n <;> decide
  rw [listing, List.mem_filter, Option.isSome_iff_ne_none]
  exact ⟨fun hn => hn.2, fun hn => ⟨hall, hn⟩⟩

/-- Two source trees, of which the newer one has lost a directory, and no destination yet. -/
def twoSourcesTable : List (Path Name × Entry Name Unit) :=
  [([], .dir), ([.older], .dir), ([.checkers, .older], .dir),
    ([.pelt, .checkers, .older], .file ()), ([.kmod], .dir), ([.pelt, .kmod], .file ())]

def twoSources : Fs Name Unit := .ofTable twoSourcesTable rfl (by decide)

def staleLinkTable : List (Path Name × Entry Name Unit) :=
  [([], .dir), ([.kmod], .dir), ([.pelt, .kmod], .file ()), ([.build], .dir),
    ([.checkers, .build], .link [.checkers, .older])]

def staleLink : Fs Name Unit := .ofTable staleLinkTable rfl (by decide)

theorem staleLink_converges : Converges listing [.kmod] [.build] staleLink := by
  refine (converges_iff lists_listing ⟨by decide, by decide⟩ rfl rfl).mpr fun q => ?_
  by_cases hq : q = []
  · subst hq
    exact ⟨fun _ => rfl, fun _ x => (by rintro ⟨⟩)⟩
  · have hnot (n : Name) : staleLink.entry (q ++ [n]) ≠ some .dir := by
      intro hdir
      have hshort : ∀ x ∈ staleLinkTable, x.2 = .dir → x.1.length ≤ 1 := by decide
      have hlen := hshort _ (mem_of_ofTable hdir) rfl
      rw [List.length_append, List.length_singleton] at hlen
      exact hq (List.length_eq_zero_iff.mp (by omega))
    exact ⟨fun hdir => absurd hdir (hnot .build), fun hdir => absurd hdir (hnot .kmod)⟩

/-- A directory that the source has lost is left by the earlier mirror, and the next one fails. -/
theorem not_converges_removed : ∃ fs, Returns listing [.older] [.build] twoSources fs ∧
    ¬ Converges listing [.kmod] [.build] fs := by
  have happart : Apart [Name.older] [Name.build] := ⟨by decide, by decide⟩
  have hbuild (q : Path Name) : twoSources.entry (q ++ [.build]) = none := by
    by_contra hne
    obtain ⟨e, he⟩ := Option.ne_none_iff_exists'.mp hne
    have hother : ∀ x ∈ twoSourcesTable, x.1.getLast? ≠ some .build := by decide
    exact hother _ (mem_of_ofTable he) List.getLast?_concat
  have hfits : Fits twoSources [.older] [.build] := by
    intro q
    rw [hbuild]
    exact ⟨fun h => (by cases h), fun _ x => (by rintro ⟨⟩)⟩
  obtain ⟨fs, hreturns, hmirrors⟩ := exists_returns lists_listing happart
    ⟨.build, [], rfl, rfl⟩ rfl (Or.inl (hbuild [])) hfits
  refine ⟨fs, hreturns, fun hconverges => ?_⟩
  have hfits' := hconverges.fits lists_listing ⟨by decide, by decide⟩ hmirrors.dir
  -- the older mirror's directory is still there, and the newer source has none
  have hdir : fs.entry [.checkers, .build] = some .dir := hmirrors.under [.checkers]
  have hnone : fs.entry [.checkers, .kmod] = none := hmirrors.outside _ (by decide)
  have hsource := (hfits' [.checkers]).1 hdir
  rw [List.singleton_append, hnone] at hsource
  cases hsource

end KStep.Mirror
