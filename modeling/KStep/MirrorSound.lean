import KStep.Mirror

/-!
# What a successful mirror has found and made

Each loop of `mirror` works name by name, so what the call leaves at a path of the destination is
put together from what the two loops make of the subtree of its first name.
-/

namespace KStep.Mirror

open EarlyExit FileSystem

variable {ν α : Type*} {list : Fs ν α → Path ν → List ν} {fs fs' fs₁ base g : Fs ν α}
  {src dst : Path ν} {n : ν} {depth : ℕ} {rec : Path ν → Path ν → Fs ν α → Option Stop × Fs ν α}

theorem readDir_eq {p : Path ν} (h : fs.entry p = some .dir) :
    fs.readDir list p = .ok (list fs p) := by
  rw [Fs.readDir, if_pos (Fs.isDir_iff.mpr h)]

theorem readDir_inv {p : Path ν} {names : List ν} (h : fs.readDir list p = .ok names) :
    fs.entry p = some .dir ∧ names = list fs p := by
  rw [Fs.readDir] at h
  split_ifs at h with hdir
  · cases h
    exact ⟨Fs.isDir_iff.mp hdir, rfl⟩

/-- What is under a name that is not there is not there. -/
theorem entry_unlisted {p q : Path ν} (h : fs.entry (n :: p) = none) :
    fs.entry (q ++ n :: p) = none := by
  by_cases hq : q = []
  · rw [hq]
    exact h
  · exact entry_below (by rw [h]; rintro ⟨⟩) hq

/-- The first name of a path under a directory is a directory. -/
theorem entry_dir_above {p q : Path ν} (h : fs.entry (q ++ n :: p) = some .dir) :
    fs.entry (n :: p) = some .dir := by
  by_cases hq : q = []
  · rw [hq] at h
    exact h
  · exact entry_above (by rw [h]; rintro ⟨⟩) hq

/-- After the first loop a name that is no directory of the source is free or a regular file. -/
theorem Dropped.clean (h : Dropped base src dst n fun q => g.entry (q ++ n :: dst))
    (hsrc : base.entry (n :: src) ≠ some .dir) :
    g.entry (n :: dst) = none ∨ ∃ x, g.entry (n :: dst) = some (.file x) := by
  have hsub : g.entry (n :: dst) = cleared base src dst n [] := h.sub_eq []
  rcases hbase : base.entry (n :: dst) with _ | _ | x | t
  · left
    rw [hsub]
    simp only [cleared, hbase, List.nil_append]
  · exact absurd ((h.fits hbase []).1 hbase) hsrc
  · right
    refine ⟨x, ?_⟩
    rw [hsub]
    simp only [cleared, hbase, List.nil_append]
  · left
    rw [hsub]
    simp only [cleared, hbase]

/-- What the first loop leaves makes no difference to what the second makes of it. -/
theorem mirrored_cleared (base : Fs ν α) (src dst : Path ν) (n : ν) (q : Path ν) :
    mirrored (q ++ n :: src) (base.entry (q ++ n :: src)) (cleared base src dst n q) =
      mirrored (q ++ n :: src) (base.entry (q ++ n :: src)) (base.entry (q ++ n :: dst)) := by
  rcases hbase : base.entry (n :: dst) with _ | _ | x | t
  · simp only [cleared, hbase]
  · simp only [cleared, hbase, mirrored_idem]
  · simp only [cleared, hbase]
  · simp only [cleared, hbase]
    by_cases hq : q = []
    · rw [hq, List.nil_append, List.nil_append, hbase, mirrored_link]
    · rw [entry_below (p := n :: dst) (by rw [hbase]; rintro ⟨⟩) hq]

/-- The two loops together, from a destination that is there. -/
theorem mirrors_of_loops (hsrc : base.entry src = some .dir) (hdst : base.entry dst = some .dir)
    (hsource : ∀ q n, g.entry (q ++ n :: src) = base.entry (q ++ n :: src))
    (hdropped : ∀ n, Dropped base src dst n fun q => g.entry (q ++ n :: dst))
    (hlinked : ∀ n, Linked g src dst n fun q => fs'.entry (q ++ n :: dst))
    (hend : fs'.entry dst = some .dir) (houtside : ∀ r, ¬ dst <:+ r → fs'.entry r = base.entry r) :
    Mirrors base src dst fs' where
  source := hsrc
  fits q := by
    rcases List.eq_nil_or_concat q with rfl | ⟨q, n, rfl⟩
    · simp only [List.nil_append, hsrc, hdst]
      exact ⟨fun _ => trivial, fun _ x => by rintro ⟨⟩⟩
    · simp only [List.concat_eq_append, List.append_assoc, List.singleton_append]
      refine ⟨fun hdir => ?_, fun hdir x hfile => ?_⟩
      · exact ((hdropped n).fits (entry_dir_above hdir) q).1 hdir
      · have hfirst : g.entry (n :: src) = some .dir :=
          (hsource [] n).trans (entry_dir_above hdir)
        have hnot := ((hlinked n).fits hfirst q).2 (by rw [hsource, hdir]) x
        have hsub : g.entry (q ++ n :: dst) = cleared base src dst n q := (hdropped n).sub_eq q
        rcases hbase : base.entry (n :: dst) with _ | _ | y | t
        · simp only [cleared, hbase] at hsub
          exact hnot (hsub.trans hfile)
        · exact ((hdropped n).fits hbase q).2 hdir x hfile
        · simp only [cleared, hbase] at hsub
          exact hnot (hsub.trans hfile)
        · by_cases hq : q = []
          · rw [hq, List.nil_append, hbase] at hfile
            cases hfile
          · rw [entry_below (p := n :: dst) (by rw [hbase]; rintro ⟨⟩) hq] at hfile
            cases hfile
  under q := by
    rcases List.eq_nil_or_concat q with rfl | ⟨q, n, rfl⟩
    · rw [List.nil_append, List.nil_append, hend, hsrc, mirrored_dir]
    · simp only [List.concat_eq_append, List.append_assoc, List.singleton_append]
      have hsub : g.entry (q ++ n :: dst) = cleared base src dst n q := (hdropped n).sub_eq q
      have hmade : fs'.entry (q ++ n :: dst) = mirrored (q ++ n :: src) (g.entry (q ++ n :: src))
        (g.entry (q ++ n :: dst)) := (hlinked n).sub_eq q
      rw [hmade, hsource, hsub, mirrored_cleared]
  outside := houtside

/-- The destination directory itself is there when the loops start. -/
theorem Mirrors.of_created (h : Apart src dst)
    (hnone : fs.entry dst = none ∨ fs.entry dst = some .dir)
    (hother : ∀ r, r ≠ dst → fs₁.entry r = fs.entry r) (hmirrors : Mirrors fs₁ src dst fs') :
    Mirrors fs src dst fs' := by
  have hsource (q : Path ν) : fs₁.entry (q ++ src) = fs.entry (q ++ src) := by
    apply hother
    intro heq
    exact h.not_suffix q (heq ▸ List.suffix_refl dst)
  have hsrc : fs.entry src = some .dir := (hsource []).symm.trans hmirrors.source
  have hunder (q : Path ν) (hq : q ≠ []) : fs₁.entry (q ++ dst) = fs.entry (q ++ dst) :=
    hother _ fun heq => hq (List.append_left_eq_self.mp heq)
  refine ⟨hsrc, fun q => ?_, fun q => ?_, fun r hr => ?_⟩
  · by_cases hq : q = []
    · rw [hq, List.nil_append, List.nil_append]
      refine ⟨fun _ => hsrc, fun _ x hfile => ?_⟩
      rw [hfile] at hnone
      rcases hnone with hnone | hnone <;> cases hnone
    · rw [← hsource, ← hunder q hq]
      exact hmirrors.fits q
  · rw [hmirrors.under]
    by_cases hq : q = []
    · rw [hq, List.nil_append, List.nil_append, hmirrors.source, hsrc, mirrored_dir, mirrored_dir]
    · rw [hsource, hunder q hq]
  · rw [hmirrors.outside r hr, hother r (ne_of_not_suffix hr)]

section Program

variable [DecidableEq ν]

theorem createDirAll_placed (h : Placed fs dst) (hcall : fs.createDirAll dst = (none, fs₁)) :
    (fs.entry dst = none ∨ fs.entry dst = some .dir) ∧
      fs₁.entry = Function.update fs.entry dst (some .dir) := by
  obtain ⟨n, p, rfl, hp⟩ := h
  have hnone := createDirAll_inv hp hcall
  obtain ⟨fs₂, hcall', hentry⟩ := createDirAll_eq hp hnone
  rw [hcall] at hcall'
  cases hcall'
  exact ⟨hnone, hentry⟩

/-- What a call that returns has gone through. -/
theorem mirror_inv (h : mirror list (depth + 1) src dst fs = (none, fs')) :
    ∃ fs₁ g, fs.createDirAll dst = (none, fs₁) ∧
      stopFold (dropTurn (mirror list depth) src dst) (list fs₁ dst) fs₁ = (none, g) ∧
      g.entry src = some .dir ∧
      stopFold (linkTurn (mirror list depth) src dst) (list g src) g = (none, fs') := by
  rw [mirror] at h
  split at h
  · cases h
  · rename_i fs₁ hcreate
    split at h
    · cases h
    · rename_i names hread
      obtain ⟨-, rfl⟩ := readDir_inv hread
      split at h
      · cases h
      · rename_i g hdrop
        split at h
        · cases h
        · rename_i names hread
          obtain ⟨hsrc, rfl⟩ := readDir_inv hread
          exact ⟨fs₁, g, hcreate, hdrop, hsrc, h⟩

theorem mirror_eq (hcreate : fs.createDirAll dst = (none, fs₁)) (hdst : fs₁.entry dst = some .dir)
    (hdrop : stopFold (dropTurn (mirror list depth) src dst) (list fs₁ dst) fs₁ = (none, g))
    (hsrc : g.entry src = some .dir) :
    mirror list (depth + 1) src dst fs =
      stopFold (linkTurn (mirror list depth) src dst) (list g src) g := by
  simp only [mirror, hcreate, readDir_eq hdst, hdrop, readDir_eq hsrc]

/-- The first loop, name by name. -/
theorem dropLoop_sound (hlist : Lists list) (hrec : Sound rec) (h : Apart src dst)
    (hdst : base.entry dst = some .dir)
    (hloop : stopFold (dropTurn rec src dst) (list base dst) base = (none, g)) :
    (∀ n, Dropped base src dst n fun q => g.entry (q ++ n :: dst)) ∧
      (∀ r, ¬ dst <:+ r → g.entry r = base.entry r) ∧ g.entry dst = some .dir := by
  obtain ⟨hnodup, hmem⟩ := hlist base dst
  obtain ⟨hnames, hkeep⟩ := stopFold_turns (fun n _ g g' => dropTurn_sound hrec h hdst) hnodup
    (AgreesOn.refl dst _ base) hloop
  refine ⟨fun n => ?_, fun r hr => ?_, ?_⟩
  · by_cases hn : n ∈ list base dst
    · exact hnames n hn
    · have hnone : base.entry (n :: dst) = none := by
        by_contra hne
        exact hn ((hmem n).mpr hne)
      refine ⟨fun hdir => ?_, fun q => ?_⟩
      · rw [hnone] at hdir
        cases hdir
      · simp only [cleared, hnone]
        apply hkeep
        intro m hm hsuf
        exact hn (eq_of_suffix hsuf (List.suffix_append q (n :: dst)) ▸ hm)
  · exact hkeep r fun n _ hsuf => hr ((List.suffix_cons n dst).trans hsuf)
  · rw [hkeep dst fun n _ => not_suffix_self n dst, hdst]

/-- The second loop, name by name, from what the first one leaves. -/
theorem linkLoop_sound (hlist : Lists list) (hrec : Sound rec) (h : Apart src dst)
    (hdst : base.entry dst = some .dir)
    (hclean : ∀ n, base.entry (n :: src) ≠ some .dir →
      base.entry (n :: dst) = none ∨ ∃ x, base.entry (n :: dst) = some (.file x))
    (hloop : stopFold (linkTurn rec src dst) (list base src) base = (none, g)) :
    (∀ n, Linked base src dst n fun q => g.entry (q ++ n :: dst)) ∧
      (∀ r, ¬ dst <:+ r → g.entry r = base.entry r) ∧ g.entry dst = some .dir := by
  obtain ⟨hnodup, hmem⟩ := hlist base src
  obtain ⟨hnames, hkeep⟩ := stopFold_turns
    (fun n _ g g' => linkTurn_sound hrec h hdst (hclean n)) hnodup (AgreesOn.refl dst _ base) hloop
  refine ⟨fun n => ?_, fun r hr => ?_, ?_⟩
  · by_cases hn : n ∈ list base src
    · exact hnames n hn
    · have hnone : base.entry (n :: src) = none := by
        by_contra hne
        exact hn ((hmem n).mpr hne)
      have hnot : base.entry (n :: src) ≠ some .dir := by
        rw [hnone]
        rintro ⟨⟩
      refine ⟨fun hdir => absurd hdir hnot, fun q => ?_⟩
      have hsame : g.entry (q ++ n :: dst) = base.entry (q ++ n :: dst) := by
        apply hkeep
        intro m hm hsuf
        exact hn (eq_of_suffix hsuf (List.suffix_append q (n :: dst)) ▸ hm)
      rw [hsame, entry_unlisted hnone]
      rcases hclean n hnot with hfree | ⟨x, hx⟩
      · rw [entry_unlisted hfree]
        rfl
      · by_cases hq : q = []
        · rw [hq, List.nil_append, hx]
          rfl
        · rw [entry_below (p := n :: dst) (by rw [hx]; rintro ⟨⟩) hq]
          rfl
  · exact hkeep r fun n _ hsuf => hr ((List.suffix_cons n dst).trans hsuf)
  · rw [hkeep dst fun n _ => not_suffix_self n dst, hdst]

/-- A call that succeeds has found two trees that fit and made the mirror. -/
theorem mirror_sound (hlist : Lists list) (depth : ℕ) :
    Sound (mirror (α := α) list depth) := by
  induction depth with
  | zero =>
      intro src dst fs fs' _ _ hcall
      cases hcall
  | succ depth ih =>
      intro src dst fs fs' h hplaced hcall
      obtain ⟨fs₁, g, hcreate, hdrop, hsrc, hlink⟩ := mirror_inv hcall
      obtain ⟨hnone, hentry⟩ := createDirAll_placed hplaced hcreate
      have hother (r : Path ν) (hr : r ≠ dst) : fs₁.entry r = fs.entry r := by
        rw [hentry, Function.update_of_ne hr]
      have hdst : fs₁.entry dst = some .dir := by
        rw [hentry, Function.update_self]
      obtain ⟨hdropped, hout, hgdst⟩ := dropLoop_sound hlist ih h hdst hdrop
      have hsource (q : Path ν) (n : ν) : g.entry (q ++ n :: src) = fs₁.entry (q ++ n :: src) :=
        hout _ (not_suffix_source h q n)
      have hclean (n : ν) (hn : g.entry (n :: src) ≠ some .dir) :=
        (hdropped n).clean fun hdir => hn ((hsource [] n).trans hdir)
      obtain ⟨hlinked, hout', hend⟩ := linkLoop_sound hlist ih h hgdst hclean hlink
      refine Mirrors.of_created h hnone hother (mirrors_of_loops ?_ hdst hsource hdropped hlinked
        hend fun r hr => (hout' r hr).trans (hout r hr))
      rw [← hout src h.2]
      exact hsrc

end Program

end KStep.Mirror
