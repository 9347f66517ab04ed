import KStep.EarlyExit
import KStep.Runs

/-!
# Checking out a kernel tree

`checkout` makes `build/<name>/linux` by external steps, each of which may fail and leave something
at its output path. A step whose output path exists is skipped, and so is the whole checkout when
`linux` exists. A tree is complete after every success if no failed step leaves its output path
behind.
-/

namespace KStep.Checkout

open EarlyExit Runs

/-- How an external step goes: to its end, or it fails and leaves `left` at its output path. -/
inductive Outcome (α : Type) where
  | finished
  | failed (left : α)
  deriving DecidableEq

/-- What there is to fetch for one ref and patch: the tarball and the tree of the ref, what `tar`
and `patch` make of their input and whether they succeed. -/
structure Upstream (T B : Type) where
  tarball : B
  tree : T
  unpack : Option B → Bool × T
  unpack_tarball : unpack (some tarball) = (true, tree)
  patch : Option (T → Bool × T)

/-- `build/<name>/<ref>.tar.xz`, `build/<name>/linux`, and whether `build/master` exists. -/
structure Dir (T B : Type) where
  tarball : Option B
  linux : Option T
  master : Bool
  deriving DecidableEq

structure Externals (T B : Type) where
  createDir : Bool
  wget : Outcome (Option B)
  tar : Outcome (Option T)
  clone : Outcome Bool
  fetch : Bool
  prune : Bool
  worktree : Outcome (Option T)
  patch : Outcome T
  symlink : Bool

inductive Fail where
  | createDir | download | decompress | clone | fetch | prune | worktree | patch | symlink | unknown
  deriving DecidableEq

variable {T B : Type}

abbrev Step (T B : Type) := Dir T B → Option Fail × Dir T B

def runSteps (steps : List (Step T B)) : Step T B := stopFold (fun d step => step d) steps

def check (ok : Bool) (fail : Fail) : Step T B := fun d => (if ok then none else some fail, d)

def download (U : Upstream T B) (x : Externals T B) : Step T B := fun d =>
  if d.tarball.isSome then (none, d)
  else match x.wget with
    | .finished => (none, { d with tarball := some U.tarball })
    | .failed left => (some .download, { d with tarball := left })

def decompress (U : Upstream T B) (x : Externals T B) : Step T B := fun d =>
  if d.linux.isSome then (none, d)
  else match x.tar with
    | .finished =>
      (if (U.unpack d.tarball).1 then none else some .decompress,
        { d with linux := some (U.unpack d.tarball).2 })
    | .failed left => (some .decompress, { d with linux := left })

def clone (x : Externals T B) : Step T B := fun d =>
  if d.master then (none, d)
  else match x.clone with
    | .finished => (none, { d with master := true })
    | .failed left => (some .clone, { d with master := left })

def worktree (U : Upstream T B) (x : Externals T B) : Step T B := fun d =>
  match x.worktree with
  | .finished => (none, { d with linux := some U.tree })
  | .failed left => (some .worktree, { d with linux := left })

def patchLinux (U : Upstream T B) (x : Externals T B) : Step T B := fun d =>
  match U.patch, d.linux with
  | none, _ => (none, d)
  | some _, none => (some .patch, d)
  | some apply, some t => match x.patch with
    | .finished => (if (apply t).1 then none else some .patch, { d with linux := some (apply t).2 })
    | .failed left => (some .patch, { d with linux := some left })

def treeSteps (U : Upstream T B) (tarball : Bool) (x : Externals T B) : List (Step T B) :=
  if tarball then [download U x, decompress U x]
  else [clone x, check x.fetch .fetch, check x.prune .prune, worktree U x]

def checkout (U : Upstream T B) (tarball setCurrent : Bool) (x : Externals T B) : Step T B :=
  fun d =>
    let make := if d.linux.isSome then []
      else check x.createDir .createDir :: (treeSteps U tarball x ++ [patchLinux U x])
    let link := if setCurrent then [check x.symlink .symlink] else []
    runSteps (make ++ link) d

/-- `Build::new`, where `known` says that the name tells the ref and the patch. -/
def buildNew (U : Upstream T B) (known : Bool) (x : Externals T B) : Step T B := fun d =>
  if d.linux.isSome then (none, d)
  else if known then checkout U true false x d
  else (some .unknown, d)

inductive Call where
  | checkout (tarball setCurrent : Bool)
  | build (known : Bool)
  deriving DecidableEq

def exec (U : Upstream T B) : Call × Externals T B → Step T B
  | (.checkout tarball setCurrent, x) => checkout U tarball setCurrent x
  | (.build known, x) => buildNew U known x

def callStep (U : Upstream T B) (d : Dir T B) (e : Call × Externals T B) : Option (Dir T B) :=
  some (exec U e d).2

def Dir.empty : Dir T B := ⟨none, none, false⟩

def Upstream.goal (U : Upstream T B) : Option T :=
  match U.patch with
  | none => some U.tree
  | some apply => if (apply U.tree).1 then some (apply U.tree).2 else none

def Outcome.LeavesNone {α : Type} : Outcome (Option α) → Prop
  | .finished => True
  | .failed left => left = none

/-- The patch applies and `patch` does not fail: what it would leave behind is the tree. -/
def CleanPatch (U : Upstream T B) (x : Externals T B) : Prop :=
  U.patch = none ∨ x.patch = .finished ∧ U.goal ≠ none

/-- A step of a checkout that runs and fails leaves no output path behind. -/
def CleanSteps (U : Upstream T B) (tarball : Bool) (x : Externals T B) (d : Dir T B) : Prop :=
  if tarball then
    (d.tarball = none → x.wget.LeavesNone) ∧
      (d.tarball ≠ none ∨ x.wget = .finished →
        x.tar.LeavesNone ∧ (x.tar = .finished → CleanPatch U x))
  else (d.master = true ∨ x.clone = .finished) ∧ x.fetch = true ∧ x.prune = true →
    x.worktree.LeavesNone ∧ (x.worktree = .finished → CleanPatch U x)

def Clean (U : Upstream T B) (d : Dir T B) : Call × Externals T B → Prop
  | (.checkout tarball _, x) => d.linux = none → x.createDir = true → CleanSteps U tarball x d
  | (.build known, x) =>
    d.linux = none → known = true → x.createDir = true → CleanSteps U true x d

structure Sound (U : Upstream T B) (d : Dir T B) : Prop where
  tarball : d.tarball = none ∨ d.tarball = some U.tarball
  linux : d.linux = none ∨ d.linux = U.goal

variable {U : Upstream T B} {x : Externals T B} {d d' : Dir T B}

theorem runSteps_ok {step : Step T B} (h : step d = (none, d')) (l : List (Step T B)) :
    runSteps (step :: l) d = runSteps l d' :=
  stopFold_cons_ok h l

theorem runSteps_fail {step : Step T B} {f : Fail} (h : step d = (some f, d'))
    (l : List (Step T B)) : runSteps (step :: l) d = (some f, d') :=
  stopFold_cons_error h l

theorem patchLinux_clean (hclean : CleanPatch U x) (hlinux : d.linux = some U.tree) :
    ∃ t, U.goal = some t ∧ patchLinux U x d = (none, { d with linux := some t }) := by
  rcases hpatch : U.patch with _ | apply
  · refine ⟨U.tree, by simp [Upstream.goal, hpatch], ?_⟩
    simp only [patchLinux, hpatch, ← hlinux]
  · obtain ⟨hrun, hgoal⟩ : x.patch = .finished ∧ U.goal ≠ none := by
      rcases hclean with h | h
      · exact absurd (h.symm.trans hpatch) (by simp)
      · exact h
    have happly : (apply U.tree).1 = true := by
      by_contra hfalse
      exact hgoal (by simp [Upstream.goal, hpatch, hfalse])
    refine ⟨(apply U.tree).2, by simp [Upstream.goal, hpatch, happly], ?_⟩
    simp only [patchLinux, hpatch, hlinux, hrun, happly, if_true]

/-- Steps that end in a whole directory, and with the tree in it if they succeed. -/
def Ends (U : Upstream T B) (r : Option Fail × Dir T B) : Prop :=
  Sound U r.2 ∧ (r.1 = none → U.goal ≠ none ∧ r.2.linux = U.goal)

theorem Ends.of_fail {f : Fail} (h : Sound U d) : Ends U (some f, d) :=
  ⟨h, fun hok => by cases hok⟩

/-- The patch at the end, on the tree of the ref. -/
theorem patch_ends (hs : Sound U d) (hclean : CleanPatch U x) :
    Ends U (runSteps [patchLinux U x] { d with linux := some U.tree }) := by
  obtain ⟨t, hgoal, hpatch⟩ := patchLinux_clean hclean
    (rfl : ({ d with linux := some U.tree } : Dir T B).linux = _)
  rw [runSteps_ok hpatch]
  exact ⟨⟨hs.tarball, Or.inr hgoal.symm⟩, fun _ => ⟨by simp [hgoal], hgoal.symm⟩⟩

theorem decompress_ends (hs : Sound U d) (htarball : d.tarball = some U.tarball)
    (hlinux : d.linux = none) (hleaves : x.tar.LeavesNone)
    (hclean : x.tar = .finished → CleanPatch U x) :
    Ends U (runSteps [decompress U x, patchLinux U x] d) := by
  rcases htar : x.tar with _ | left
  · have hstep : decompress U x d = (none, { d with linux := some U.tree }) := by
      simp [decompress, hlinux, htar, htarball, U.unpack_tarball]
    rw [runSteps_ok hstep]
    exact patch_ends hs (hclean htar)
  · rw [htar] at hleaves
    cases hleaves
    have hstep : decompress U x d = (some .decompress, { d with linux := none }) := by
      simp [decompress, hlinux, htar]
    rw [runSteps_fail hstep]
    exact Ends.of_fail ⟨hs.tarball, Or.inl rfl⟩

theorem tarball_ends (hs : Sound U d) (hlinux : d.linux = none) (hclean : CleanSteps U true x d) :
    Ends U (runSteps (treeSteps U true x ++ [patchLinux U x]) d) := by
  obtain ⟨hwget, htar⟩ := hclean
  rcases hs.tarball with hnone | hsome
  · rcases hrun : x.wget with _ | left
    · have hstep : download U x d = (none, { d with tarball := some U.tarball }) := by
        simp [download, hnone, hrun]
      obtain ⟨hleaves, hpatch⟩ := htar (Or.inr hrun)
      change Ends U (runSteps (download U x :: _) d)
      rw [runSteps_ok hstep]
      exact decompress_ends ⟨Or.inr rfl, hs.linux⟩ rfl hlinux hleaves hpatch
    · have hleaves := hwget hnone
      rw [hrun] at hleaves
      cases hleaves
      have hstep : download U x d = (some .download, { d with tarball := none }) := by
        simp [download, hnone, hrun]
      change Ends U (runSteps (download U x :: _) d)
      rw [runSteps_fail hstep]
      exact Ends.of_fail ⟨Or.inl rfl, hs.linux⟩
  · have hstep : download U x d = (none, d) := by simp [download, hsome]
    obtain ⟨hleaves, hpatch⟩ := htar (Or.inl (by simp [hsome]))
    change Ends U (runSteps (download U x :: _) d)
    rw [runSteps_ok hstep]
    exact decompress_ends hs hsome hlinux hleaves hpatch

theorem worktree_ends (hs : Sound U d) (hleaves : x.worktree.LeavesNone)
    (hclean : x.worktree = .finished → CleanPatch U x) :
    Ends U (runSteps [worktree U x, patchLinux U x] d) := by
  rcases hrun : x.worktree with _ | left
  · have hstep : worktree U x d = (none, { d with linux := some U.tree }) := by
      simp [worktree, hrun]
    rw [runSteps_ok hstep]
    exact patch_ends hs (hclean hrun)
  · rw [hrun] at hleaves
    cases hleaves
    have hstep : worktree U x d = (some .worktree, { d with linux := none }) := by
      simp [worktree, hrun]
    rw [runSteps_fail hstep]
    exact Ends.of_fail ⟨hs.tarball, Or.inl rfl⟩

theorem check_ends {l : List (Step T B)} {ok : Bool} {f : Fail} (hs : Sound U d)
    (hrest : ok = true → Ends U (runSteps l d)) :
    Ends U (runSteps (check ok f :: l) d) := by
  cases ok with
  | false => exact Ends.of_fail hs
  | true => exact hrest rfl

theorem git_ends (hs : Sound U d) (hclean : CleanSteps U false x d) :
    Ends U (runSteps (treeSteps U false x ++ [patchLinux U x]) d) := by
  change Ends U (runSteps (clone x :: check x.fetch .fetch :: check x.prune .prune ::
    [worktree U x, patchLinux U x]) d)
  have hrest (hcloned : d.master = true ∨ x.clone = .finished) (d' : Dir T B) (hd' : Sound U d') :
      Ends U (runSteps (check x.fetch .fetch :: check x.prune .prune ::
        [worktree U x, patchLinux U x]) d') :=
    check_ends hd' fun hfetch => check_ends hd' fun hprune =>
      worktree_ends hd' (hclean ⟨hcloned, hfetch, hprune⟩).1 (hclean ⟨hcloned, hfetch, hprune⟩).2
  by_cases hmaster : d.master = true
  · have hstep : clone x d = (none, d) := by simp [clone, hmaster]
    rw [runSteps_ok hstep]
    exact hrest (Or.inl hmaster) d hs
  · rcases hrun : x.clone with _ | left
    · have hstep : clone x d = (none, { d with master := true }) := by simp [clone, hmaster, hrun]
      rw [runSteps_ok hstep]
      exact hrest (Or.inr hrun) _ ⟨hs.tarball, hs.linux⟩
    · have hstep : clone x d = (some .clone, { d with master := left }) := by
        simp [clone, hmaster, hrun]
      rw [runSteps_fail hstep]
      exact Ends.of_fail ⟨hs.tarball, hs.linux⟩

theorem append_ends {l l' : List (Step T B)} (h : Ends U (runSteps l d))
    (h' : ∀ d', Ends U (none, d') → Ends U (runSteps l' d')) : Ends U (runSteps (l ++ l') d) := by
  rcases hr : runSteps l d with ⟨_ | f, d'⟩
  · have hrun : runSteps (l ++ l') d = runSteps l' d' := stopFold_append_ok hr l'
    rw [hrun]
    exact h' d' (hr ▸ h)
  · have hrun : runSteps (l ++ l') d = (some f, d') := stopFold_append_error hr l'
    rw [hrun]
    exact hr ▸ h

/-- One call of `checkout` on a directory in which everything is whole. -/
theorem checkout_ends {tarball setCurrent : Bool} (hs : Sound U d)
    (hclean : d.linux = none → x.createDir = true → CleanSteps U tarball x d) :
    Ends U (checkout U tarball setCurrent x d) := by
  unfold checkout
  refine append_ends ?_ fun d' hd' => ?_
  swap
  · cases setCurrent with
    | false => exact hd'
    | true => exact check_ends hd'.1 fun _ => hd'
  rcases hlinux : d.linux with _ | t
  · have hmake (hdir : x.createDir = true) :
        Ends U (runSteps (treeSteps U tarball x ++ [patchLinux U x]) d) := by
      cases tarball with
      | false => exact git_ends hs (hclean hlinux hdir)
      | true => exact tarball_ends hs hlinux (hclean hlinux hdir)
    exact check_ends hs hmake
  · have hgoal : d.linux = U.goal := hs.linux.resolve_left (by simp [hlinux])
    exact ⟨hs, fun _ => ⟨by simp [← hgoal, hlinux], hgoal⟩⟩

theorem exec_ends {e : Call × Externals T B} (hs : Sound U d) (hclean : Clean U d e) :
    Ends U (exec U e d) := by
  rcases e with ⟨⟨tarball, setCurrent⟩ | known, x⟩
  · exact checkout_ends hs hclean
  · change Ends U (buildNew U known x d)
    unfold buildNew
    rcases hlinux : d.linux with _ | t
    · cases known with
      | false => exact Ends.of_fail hs
      | true => exact checkout_ends hs fun h => hclean h rfl
    · have hgoal : d.linux = U.goal := hs.linux.resolve_left (by simp [hlinux])
      exact ⟨hs, fun _ => ⟨by simp [← hgoal, hlinux], hgoal⟩⟩

theorem empty_sound : Sound U Dir.empty := ⟨Or.inl rfl, Or.inl rfl⟩

/-- In every sequence of calls for one ref and patch in which no step that fails leaves its output
path behind, a call that succeeds leaves the complete tree with the patch applied. -/
theorem checkout_complete (U : Upstream T B) (calls : List (Call × Externals T B))
    (e : Call × Externals T B) (hclean : Always (callStep U) (Clean U) Dir.empty (calls ++ [e]))
    (d : Dir T B) (hrun : run (callStep U) Dir.empty calls = some d)
    (hok : (exec U e d).1 = none) :
    ∃ t, U.goal = some t ∧ (exec U e d).2.linux = some t := by
  obtain ⟨hcalls, hlast⟩ := (always_append hrun).mp hclean
  have hsound : Sound U d := by
    refine run_invariant_of_always (fun d e d' hclean hstep hs => ?_) hrun hcalls empty_sound
    cases hstep
    exact (exec_ends hs hclean).1
  obtain ⟨hgoal, hlinux⟩ := (exec_ends hsound hlast.1).2 hok
  obtain ⟨t, ht⟩ := Option.ne_none_iff_exists'.mp hgoal
  exact ⟨t, ht, hlinux.trans ht⟩

def oneFile : Upstream String String where
  tarball := "buggy"
  tree := "buggy"
  unpack := fun b => (b.isSome, b.getD "")
  unpack_tarball := rfl
  patch := some fun t => if t = "buggy" then (true, "fixed") else (false, t)

def smooth : Externals String String :=
  ⟨true, .finished, .finished, .finished, true, true, .finished, .finished, true⟩

theorem failed_patch_reused : ∃ d,
    run (callStep oneFile) Dir.empty
      [(.checkout true false, { smooth with patch := .failed "buggy" })] = some d ∧
      (exec oneFile (.build true, smooth) d).1 = none ∧
      ¬ ∃ t, oneFile.goal = some t ∧ (exec oneFile (.build true, smooth) d).2.linux = some t := by
  refine ⟨⟨some "buggy", some "buggy", false⟩, rfl, rfl, ?_⟩
  rintro ⟨t, hgoal, hlinux⟩
  have hfixed : oneFile.goal = some "fixed" := rfl
  have hbuggy : (exec oneFile (.build true, smooth) ⟨some "buggy", some "buggy", false⟩).2.linux =
    some "buggy" := rfl
  have hsame := (hfixed.symm.trans hgoal).trans (hlinux.symm.trans hbuggy)
  exact absurd (Option.some.inj hsame) (by decide)

/-- A download that fails and leaves nothing, then a second try. -/
theorem retried_download_complete :
    ∃ t, oneFile.goal = some t ∧
      (exec oneFile (.build true, smooth) Dir.empty).2.linux = some t := by
  refine checkout_complete oneFile [(.checkout true false, { smooth with wget := .failed none })]
    (.build true, smooth) ⟨?_, ?_, trivial⟩ Dir.empty rfl rfl
  · rintro - -
    exact ⟨fun _ => rfl, fun h => absurd h (by decide)⟩
  · rintro - - -
    exact ⟨fun _ => trivial, fun _ => ⟨trivial, fun _ => Or.inr ⟨rfl, by decide⟩⟩⟩

end KStep.Checkout
