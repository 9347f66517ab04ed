import KStep.Runs
import Mathlib.Logic.Function.Basic
import Mathlib.Order.Basic

/-!
# Building the kernel and the module

`build/<name>` holds a kernel tree, the image copied out of it, and the objects of the module, which
kbuild compiles again only for a source that changed. So a new kernel has to drop them, and a
`.config` newer than the copied image has to have the kernel built first. Every file written is
dated later than those before it. What a build can leave behind when it fails is part of the run.
-/

namespace KStep.Builds

open Runs

/-- `build/<name>` with the sources of the module, `κ` the contents of a `.config` and of what is
built from it, `σ` those of a source file. A kernel copied in part is `none`. -/
structure Tree (φ κ σ : Type) where
  clock : ℕ
  config : Option (κ × ℕ)
  /-- the headers generated in the kernel tree, which the module is compiled with -/
  headers : Option κ
  image : Option (κ × ℕ)
  /-- `Module.symvers` -/
  symvers : Bool
  kernel : Option (Option κ × ℕ)
  source : φ → Option σ
  objects : φ → Option (σ × κ)
  /-- the module packed in `rootfs.cpio` -/
  rootfs : Option (φ → Option (σ × κ))

/-- How merging the config fragments goes; a failure may leave a `.config`. -/
inductive Merging (κ : Type)
  | merged (config : κ)
  | failed (left : Option κ)

/-- How `make` on the kernel goes; a failure may come after the headers or the image are
written. -/
inductive Making
  | done (relinked : Bool)
  | failed (headers relinked : Bool)
  deriving DecidableEq

/-- How copying the image and `vmlinux` out goes, with the objects that stay when the mirror cannot
be removed. -/
inductive Copying (φ : Type)
  | copied (left : φ → Bool)
  /-- the image is not copied, or in part -/
  | imageFailed (cut : Bool)
  /-- the image is copied and `vmlinux` is not -/
  | vmlinuxFailed

structure LinuxBuild (φ κ : Type) where
  merging : Merging κ
  making : Making
  copying : Copying φ

/-- How compiling the module goes: for a failure, the sources it comes to. -/
inductive Compiling (φ : Type)
  | compiled
  | failed (done : φ → Bool)

structure KstepBuild (φ κ : Type) where
  linux : LinuxBuild φ κ
  gcc : Bool
  mirror : Bool
  compiling : Compiling φ
  pack : Bool

variable {φ κ σ : Type}

def mtime {α : Type} (file : Option (α × ℕ)) : Option ℕ := file.map Prod.snd

/-- Never built, or the `.config` changed since. -/
def kernelStale (t : Tree φ κ σ) : Bool :=
  match mtime t.kernel, mtime t.config, t.symvers with
  | some kernel, some config, true => kernel < config
  | _, _, _ => true

def Tree.writeConfig (t : Tree φ κ σ) (c : κ) : Tree φ κ σ :=
  { t with config := some (c, t.clock), clock := t.clock + 1 }

def Tree.writeImage (t : Tree φ κ σ) (c : κ) : Tree φ κ σ :=
  { t with image := some (c, t.clock), clock := t.clock + 1 }

def Tree.writeKernel (t : Tree φ κ σ) (c : Option κ) : Tree φ κ σ :=
  { t with kernel := some (c, t.clock), clock := t.clock + 1 }

def configure (t : Tree φ κ σ) : Merging κ → Bool × Tree φ κ σ
  | .merged c => (true, t.writeConfig c)
  | .failed none => (false, t)
  | .failed (some c) => (false, t.writeConfig c)

variable [DecidableEq κ]

/-- `make` on the kernel. One that ends well has brought the image up to date with the `.config`, so
there is none that leaves an image of another. -/
def make (t : Tree φ κ σ) : Making → Option (Bool × Tree φ κ σ)
  | .done relinked => match t.config with
    | none => none
    | some (c, _) =>
        let t := { t with headers := some c, symvers := true }
        if relinked then some (true, t.writeImage c)
        else if t.image.map Prod.fst = some c then some (true, t) else none
  | .failed headers relinked => match t.config with
    | none => some (false, t)
    | some (c, _) =>
        let t := if headers || relinked then { t with headers := some c } else t
        some (false, if relinked then t.writeImage c else t)

/-- The copies and, when the image changed since `before`, dropping the module's mirror; where that
fails the build goes on. -/
def copyOut (before : Option ℕ) (t : Tree φ κ σ) (copying : Copying φ) : Bool × Tree φ κ σ :=
  let image := t.image.map Prod.fst
  match copying with
  | .imageFailed false => (false, t)
  | .imageFailed true => (false, t.writeKernel none)
  | .vmlinuxFailed => (false, t.writeKernel image)
  | .copied left =>
      let t' := t.writeKernel image
      (true, if mtime t.image ≠ before then
        { t' with objects := fun f => if left f then t.objects f else none } else t')

def buildLinux (t : Tree φ κ σ) (reconfigure : Bool) (x : LinuxBuild φ κ) :
    Option (Bool × Tree φ κ σ) :=
  match if reconfigure || t.config.isNone then configure t x.merging else (true, t) with
  | (false, t) => some (false, t)
  | (true, t) => match make t x.making with
    | none => none
    | some (false, t') => some (false, t')
    | some (true, t') => some (copyOut (mtime t.image) t' x.copying)

variable [DecidableEq σ]

def compile (t : Tree φ κ σ) (c : κ) (f : φ) : Option (σ × κ) :=
  match t.source f with
  | none => t.objects f
  | some s => if (t.objects f).map Prod.fst = some s then t.objects f else some (s, c)

/-- `make M=.. modules` in the mirror; the module needs the kernel's headers. -/
def makeModules (t : Tree φ κ σ) : Compiling φ → Option (Bool × Tree φ κ σ)
  | .compiled => t.headers.map fun c => (true, { t with objects := compile t c })
  | .failed done => match t.headers with
    | none => some (false, t)
    | some c => some
        (false, { t with objects := fun f => if done f then compile t c f else t.objects f })

def linked (t : Tree φ κ σ) (f : φ) : Option (σ × κ) := (t.source f).bind fun _ => t.objects f

def buildRest (t : Tree φ κ σ) (y : KstepBuild φ κ) : Option (Bool × Tree φ κ σ) :=
  if y.gcc && y.mirror then
    match makeModules t y.compiling with
    | none => none
    | some (false, t) => some (false, t)
    | some (true, t) =>
        some (if y.pack then (true, { t with rootfs := some (linked t) }) else (false, t))
  else some (false, t)

def buildKstep (t : Tree φ κ σ) (y : KstepBuild φ κ) : Option (Bool × Tree φ κ σ) :=
  if kernelStale t then
    match buildLinux t false y.linux with
    | none => none
    | some (false, t) => some (false, t)
    | some (true, t) => buildRest t y
  else buildRest t y

inductive Event (φ κ σ : Type)
  /-- a source of the module is written or removed -/
  | edit (f : φ) (s : Option σ)
  /-- the `.config` is edited by hand -/
  | editConfig (c : κ)
  | buildLinux (reconfigure : Bool) (x : LinuxBuild φ κ)
  | buildKstep (y : KstepBuild φ κ)

variable [DecidableEq φ]

def step (t : Tree φ κ σ) : Event φ κ σ → Option (Tree φ κ σ)
  | .edit f s => some { t with source := Function.update t.source f s }
  | .editConfig c => some (t.writeConfig c)
  | .buildLinux reconfigure x => (buildLinux t reconfigure x).map Prod.snd
  | .buildKstep y => (buildKstep t y).map Prod.snd

/-- A build of the kernel that fails leaves the image and its copy as they were; from one with
another image the module's mirror can be removed. -/
structure Orderly (t : Tree φ κ σ) (reconfigure : Bool) (x : LinuxBuild φ κ) : Prop where
  failed : ∀ t', buildLinux t reconfigure x = some (false, t') →
    t'.image = t.image ∧ t'.kernel = t.kernel
  removed : ∀ t' left, buildLinux t reconfigure x = some (true, t') →
    mtime t'.image ≠ mtime t.image → x.copying = .copied left → ∀ f, left f = false

def Clean (t : Tree φ κ σ) : Event φ κ σ → Prop
  | .buildLinux reconfigure x => Orderly t reconfigure x
  | .buildKstep y => kernelStale t = true → Orderly t false y.linux
  | _ => True

def checkedOut (source : φ → Option σ) : Tree φ κ σ where
  clock := 0
  config := none
  headers := none
  image := none
  symvers := false
  kernel := none
  source := source
  objects _ := none
  rootfs := none

/-- What holds between the files: they are dated before now; a copied kernel no older than the
`.config` is the kernel of that `.config`, as the headers and the image are; and the module's
objects were compiled for the image there is. -/
structure Sound (t : Tree φ κ σ) : Prop where
  config_old : ∀ c m, t.config = some (c, m) → m < t.clock
  image_old : ∀ c m, t.image = some (c, m) → m < t.clock
  kernel_old : ∀ k m, t.kernel = some (k, m) → m < t.clock
  fresh : ∀ c mc k mk, t.config = some (c, mc) → t.kernel = some (k, mk) → mc ≤ mk →
    k = some c ∧ t.headers = some c ∧ t.image.map Prod.fst = some c
  objects : ∀ f s c, t.objects f = some (s, c) → t.image.map Prod.fst = some c

def Current (t : Tree φ κ σ) (c : κ) : Prop :=
  ∃ mc mk, t.config = some (c, mc) ∧ t.kernel = some (some c, mk) ∧ mc ≤ mk

variable {t t' : Tree φ κ σ} {b : Bool}

omit [DecidableEq κ] [DecidableEq σ] [DecidableEq φ] in
theorem Sound.writeConfig (h : Sound t) (c : κ) : Sound (t.writeConfig c) where
  config_old _ _ heq := by
    cases heq
    exact Nat.lt_succ_self _
  image_old c m heq := Nat.lt_succ_of_lt (h.image_old c m heq)
  kernel_old k m heq := Nat.lt_succ_of_lt (h.kernel_old k m heq)
  fresh _ _ k mk hconfig hkernel hle := by
    cases hconfig
    exact absurd (h.kernel_old k mk hkernel) (not_lt.mpr hle)
  objects := h.objects

omit [DecidableEq κ] [DecidableEq σ] [DecidableEq φ] in
theorem configure_sound (h : Sound t) (x : Merging κ) : Sound (configure t x).2 := by
  cases x with
  | merged c => exact h.writeConfig c
  | failed left => cases left with
    | none => exact h
    | some c => exact h.writeConfig c

omit [DecidableEq κ] [DecidableEq σ] [DecidableEq φ] in
theorem configure_same (x : Merging κ) :
    (configure t x).2.image = t.image ∧ (configure t x).2.kernel = t.kernel ∧
      (configure t x).2.source = t.source := by
  cases x with
  | merged c => exact ⟨rfl, rfl, rfl⟩
  | failed left => cases left <;> exact ⟨rfl, rfl, rfl⟩

structure KeptByMake (t t' : Tree φ κ σ) : Prop where
  clock : t.clock ≤ t'.clock
  config : t'.config = t.config
  kernel : t'.kernel = t.kernel
  source : t'.source = t.source
  objects : t'.objects = t.objects

omit [DecidableEq σ] [DecidableEq φ] in
/-- A `make` that ends well leaves headers and an image of the `.config`. -/
theorem make_done {x : Making} (h : make t x = some (true, t')) : KeptByMake t t' ∧
    ∃ c mc, t.config = some (c, mc) ∧ t'.headers = some c ∧ t'.image.map Prod.fst = some c ∧
      (t'.image = t.image ∨ t'.image = some (c, t.clock) ∧ t'.clock = t.clock + 1) := by
  cases x with
  | failed headers relinked =>
      simp only [make] at h
      split at h <;> cases h
  | done relinked =>
      simp only [make] at h
      split at h
      · cases h
      next c mc hconfig =>
        split_ifs at h with hrelinked himage
        · cases h
          exact ⟨⟨Nat.le_succ _, rfl, rfl, rfl, rfl⟩, c, mc, hconfig, rfl, rfl,
            Or.inr ⟨rfl, rfl⟩⟩
        · cases h
          exact ⟨⟨le_rfl, rfl, rfl, rfl, rfl⟩, c, mc, hconfig, rfl, himage, Or.inl rfl⟩

omit [DecidableEq σ] [DecidableEq φ] in
/-- One that fails without writing the image may have written the headers. -/
theorem make_failed {x : Making} (h : make t x = some (false, t')) (himage : t'.image = t.image)
    (hold : ∀ c m, t.image = some (c, m) → m < t.clock) : KeptByMake t t' ∧
      (t'.headers = t.headers ∨ ∃ c mc, t.config = some (c, mc) ∧ t'.headers = some c) := by
  cases x with
  | done relinked =>
      simp only [make] at h
      split at h
      · cases h
      · split_ifs at h <;> cases h
  | failed headers relinked =>
      simp only [make] at h
      split at h
      · cases h
        exact ⟨⟨le_rfl, rfl, rfl, rfl, rfl⟩, Or.inl rfl⟩
      next c mc hconfig =>
        cases relinked with
        | true =>
            cases h
            simp only [if_true] at himage
            exact absurd (hold c _ himage.symm) (by simp)
        | false =>
            cases headers with
            | true =>
                cases h
                exact ⟨⟨le_rfl, rfl, rfl, rfl, rfl⟩, Or.inr ⟨c, mc, hconfig, rfl⟩⟩
            | false =>
                cases h
                exact ⟨⟨le_rfl, rfl, rfl, rfl, rfl⟩, Or.inl rfl⟩

omit [DecidableEq κ] [DecidableEq σ] [DecidableEq φ] in
/-- A `make` that leaves the image as it was keeps the files sound. -/
theorem Sound.made (h : Sound t) (hkept : KeptByMake t t') (himage : t'.image = t.image)
    (hheaders : t'.headers = t.headers ∨
      ∃ c mc, t.config = some (c, mc) ∧ t'.headers = some c) : Sound t' where
  config_old c m heq := (h.config_old c m (hkept.config ▸ heq)).trans_le hkept.clock
  image_old c m heq := (h.image_old c m (himage ▸ heq)).trans_le hkept.clock
  kernel_old k m heq := (h.kernel_old k m (hkept.kernel ▸ heq)).trans_le hkept.clock
  fresh c mc k mk hconfig hkernel hle := by
    rw [hkept.config] at hconfig
    rw [hkept.kernel] at hkernel
    obtain ⟨hk, hhead, himg⟩ := h.fresh c mc k mk hconfig hkernel hle
    refine ⟨hk, ?_, himage ▸ himg⟩
    rcases hheaders with heq | ⟨c', mc', hconfig', heq⟩
    · exact heq.trans hhead
    · rw [hconfig'] at hconfig
      cases hconfig
      exact heq
  objects f s c heq := by
    rw [hkept.objects] at heq
    rw [himage]
    exact h.objects f s c heq

omit [DecidableEq κ] [DecidableEq σ] [DecidableEq φ] in
theorem copyOut_copied {before : Option ℕ} {x : Copying φ} (h : copyOut before t x = (true, t')) :
    ∃ left, x = .copied left ∧ t' = { t.writeKernel (t.image.map Prod.fst) with
      objects := if mtime t.image ≠ before then fun f => if left f then t.objects f else none
        else t.objects } := by
  cases x with
  | copied left =>
      simp only [copyOut, Prod.mk.injEq, true_and] at h
      refine ⟨left, rfl, ?_⟩
      rw [← h]
      split_ifs <;> rfl
  | imageFailed cut => cases cut <;> cases h
  | vmlinuxFailed => cases h

omit [DecidableEq κ] [DecidableEq σ] [DecidableEq φ] in
/-- A copy that fails and leaves the kernel as it was has written nothing. -/
theorem copyOut_failed {before : Option ℕ} {x : Copying φ} (h : copyOut before t x = (false, t'))
    (hkernel : t'.kernel = t.kernel) (hold : ∀ k m, t.kernel = some (k, m) → m < t.clock) :
    t' = t := by
  have hnew (k : Option κ) (hk : t.kernel = some (k, t.clock)) : False :=
    absurd (hold k _ hk) (lt_irrefl _)
  cases x with
  | copied => cases h
  | imageFailed cut =>
      cases cut with
      | false =>
          cases h
          rfl
      | true =>
          cases h
          exact (hnew _ hkernel.symm).elim
  | vmlinuxFailed =>
      cases h
      exact (hnew _ hkernel.symm).elim

omit [DecidableEq σ] [DecidableEq φ] in
/-- The tree in which a build of the kernel comes to `make`. -/
theorem buildLinux_cases {r : Bool} {x : LinuxBuild φ κ} (h : buildLinux t r x = some (b, t'))
    (ht : Sound t) : ∃ u, Sound u ∧ u.image = t.image ∧ u.kernel = t.kernel ∧ u.source = t.source ∧
      (b = false ∧ t' = u ∨ make u x.making = some (b, t') ∧ b = false ∨
        ∃ v, make u x.making = some (true, v) ∧ copyOut (mtime u.image) v x.copying = (b, t')) := by
  simp only [buildLinux] at h
  have hstart : ∃ ok u, (if r || t.config.isNone then configure t x.merging else (true, t)) =
      (ok, u) ∧ Sound u ∧ u.image = t.image ∧ u.kernel = t.kernel ∧ u.source = t.source := by
    split_ifs
    · obtain ⟨himage, hkernel, hsource⟩ := configure_same (t := t) x.merging
      exact ⟨_, _, rfl, configure_sound ht x.merging, himage, hkernel, hsource⟩
    · exact ⟨_, _, rfl, ht, rfl, rfl, rfl⟩
  obtain ⟨ok, u, heq, hu, himage, hkernel, hsource⟩ := hstart
  rw [heq] at h
  refine ⟨u, hu, himage, hkernel, hsource, ?_⟩
  cases ok with
  | false =>
      cases h
      exact Or.inl ⟨rfl, rfl⟩
  | true =>
      simp only at h
      split at h
      · cases h
      next v hmake =>
        cases h
        exact Or.inr (Or.inl ⟨hmake, rfl⟩)
      next v hmake => exact Or.inr (Or.inr ⟨v, hmake, Option.some.inj h⟩)

omit [DecidableEq σ] [DecidableEq φ] in
/-- A build of the kernel that ends well leaves the kernel of the `.config`, and no object of
another image. -/
theorem buildLinux_done {r : Bool} {x : LinuxBuild φ κ} (h : buildLinux t r x = some (true, t'))
    (horderly : Orderly t r x) (ht : Sound t) :
    Sound t' ∧ (∃ c, Current t' c) ∧ t'.source = t.source := by
  obtain ⟨u, hu, hbefore, -, hsource, hcase⟩ := buildLinux_cases h ht
  rcases hcase with ⟨hb, -⟩ | ⟨-, hb⟩ | ⟨v, hmake, hcopy⟩
  · cases hb
  · cases hb
  · obtain ⟨hkept, c, mc, hconfig, hhead, himg, himage⟩ := make_done hmake
    have hv : ∀ d m, v.image = some (d, m) → m < v.clock := by
      intro d m heq
      rcases himage with hsame | ⟨hnew, hclock⟩
      · exact (hu.image_old d m (hsame ▸ heq)).trans_le hkept.clock
      · rw [hnew] at heq
        cases heq
        omega
    have hmc := (hu.config_old c mc hconfig).trans_le hkept.clock
    have hconfig' : v.config = some (c, mc) := hkept.config.trans hconfig
    obtain ⟨left, hleft, rfl⟩ := copyOut_copied hcopy
    have hremoved := horderly.removed _ left h
    rw [himg] at hremoved ⊢
    refine ⟨⟨?_, ?_, ?_, ?_, ?_⟩, ⟨c, mc, v.clock, hconfig', rfl, hmc.le⟩, ?_⟩
    · intro d m heq
      exact Nat.lt_succ_of_lt ((hu.config_old d m (hkept.config ▸ heq)).trans_le hkept.clock)
    · exact fun d m heq => Nat.lt_succ_of_lt (hv d m heq)
    · intro k m heq
      cases heq
      exact Nat.lt_succ_self _
    · intro d md k mk heq hkernel hle
      cases hconfig'.symm.trans heq
      cases hkernel
      exact ⟨rfl, hhead, himg⟩
    · intro f s d heq
      simp only at heq
      by_cases hchanged : mtime v.image ≠ mtime u.image
      · rw [if_pos hchanged, hremoved (hbefore ▸ hchanged) hleft f] at heq
        cases heq
      rw [if_neg hchanged] at heq
      rcases himage with hsame | ⟨hnew, -⟩
      · rw [hkept.objects] at heq
        change v.image.map Prod.fst = some d
        rw [hsame]
        exact hu.objects f s d heq
      · refine absurd ?_ hchanged
        intro hmtime
        rw [hnew] at hmtime
        obtain ⟨⟨e, m⟩, hold, hm⟩ := Option.map_eq_some_iff.mp hmtime.symm
        exact absurd (hu.image_old e m hold) (by simp only at hm; omega)
    · exact hkept.source.trans hsource

omit [DecidableEq σ] [DecidableEq φ] in
theorem buildLinux_failed {r : Bool} {x : LinuxBuild φ κ} (h : buildLinux t r x = some (false, t'))
    (horderly : Orderly t r x) (ht : Sound t) : Sound t' := by
  obtain ⟨himage', hkernel'⟩ := horderly.failed t' h
  obtain ⟨u, hu, himage, hkernel, -, hcase⟩ := buildLinux_cases h ht
  rcases hcase with ⟨-, rfl⟩ | ⟨hmake, -⟩ | ⟨v, hmake, hcopy⟩
  · exact hu
  · have hsame : t'.image = u.image := himage'.trans himage.symm
    obtain ⟨hkept, hheaders⟩ := make_failed hmake hsame hu.image_old
    exact hu.made hkept hsame hheaders
  · obtain ⟨hkept, c, mc, hconfig, hhead, -, -⟩ := make_done hmake
    have hkv : t'.kernel = v.kernel := hkernel'.trans (hkernel.symm.trans hkept.kernel.symm)
    have hv : t' = v := copyOut_failed hcopy hkv fun k m heq =>
      (hu.kernel_old k m (hkept.kernel ▸ heq)).trans_le hkept.clock
    rw [hv] at himage' ⊢
    exact hu.made hkept (himage'.trans himage.symm) (Or.inr ⟨c, mc, hconfig, hhead⟩)

omit [DecidableEq κ] [DecidableEq φ] in
/-- Compiling with the headers of the image keeps the objects those of the image. -/
theorem Sound.compiled (h : Sound t) {c : κ} {objects : φ → Option (σ × κ)}
    (himage : t.image.map Prod.fst = some c)
    (hobjects : ∀ f, objects f = t.objects f ∨ objects f = compile t c f) :
    Sound { t with objects := objects } where
  config_old := h.config_old
  image_old := h.image_old
  kernel_old := h.kernel_old
  fresh := h.fresh
  objects f s d heq := by
    rcases hobjects f with hsame | hnew
    · exact h.objects f s d (hsame ▸ heq)
    · simp only [hnew, compile] at heq
      split at heq
      · exact h.objects f s d heq
      · split_ifs at heq
        · exact h.objects f s d heq
        · cases heq
          exact himage

omit [DecidableEq κ] [DecidableEq φ] in
/-- The object of every source after a whole compile. -/
theorem linked_compile (h : Sound t) {c : κ} (himage : t.image.map Prod.fst = some c) (f : φ) :
    linked { t with objects := compile t c } f = (t.source f).map fun s => (s, c) := by
  simp only [linked, compile]
  cases hsource : t.source f with
  | none => rfl
  | some s =>
      simp only [Option.bind_some, Option.map_some]
      split_ifs with hkept
      · obtain ⟨⟨s', d⟩, hobject, rfl⟩ := Option.map_eq_some_iff.mp hkept
        have hd := (h.objects f s' d hobject).symm.trans himage
        rw [hobject, Option.some.inj hd]
      · rfl

/-- The module packed is compiled from its sources for the kernel of the `.config`. -/
def Packed (t : Tree φ κ σ) : Prop :=
  ∃ c module, Current t c ∧ t.image.map Prod.fst = some c ∧ t.rootfs = some module ∧
    ∀ f, module f = (t.source f).map fun s => (s, c)

omit [DecidableEq κ] [DecidableEq φ] in
theorem makeModules_cases {x : Compiling φ} {c : κ} (hhead : t.headers = some c)
    (h : makeModules t x = some (b, t')) :
    b = true ∧ t' = { t with objects := compile t c } ∨
      b = false ∧ ∃ objects, (∀ f, objects f = t.objects f ∨ objects f = compile t c f) ∧
        t' = { t with objects := objects } := by
  cases x with
  | compiled =>
      obtain ⟨d, hsome, heq⟩ := Option.map_eq_some_iff.mp h
      obtain rfl : d = c := Option.some.inj (hsome.symm.trans hhead)
      cases heq
      exact Or.inl ⟨rfl, rfl⟩
  | failed done =>
      simp only [makeModules] at h
      split at h
      next hnone => cases hnone.symm.trans hhead
      next d hsome =>
        obtain rfl : d = c := Option.some.inj (hsome.symm.trans hhead)
        cases h
        refine Or.inr ⟨rfl, _, fun f => ?_, rfl⟩
        split_ifs
        · exact Or.inr rfl
        · exact Or.inl rfl

omit [DecidableEq κ] [DecidableEq φ] in
theorem buildRest_sound {y : KstepBuild φ κ} (h : buildRest t y = some (b, t')) (ht : Sound t)
    {c : κ} (hcurrent : Current t c) : Sound t' ∧ (b = true → Packed t') := by
  obtain ⟨mc, mk, hconfig, hkernel, hle⟩ := hcurrent
  obtain ⟨-, hhead, himage⟩ := ht.fresh c mc _ mk hconfig hkernel hle
  unfold buildRest at h
  by_cases hready : (y.gcc && y.mirror) = true
  · rw [if_pos hready] at h
    split at h
    · cases h
    next u hmake =>
      rcases makeModules_cases hhead hmake with ⟨hb, -⟩ | ⟨-, objects, hobjects, rfl⟩
      · cases hb
      · cases h
        exact ⟨ht.compiled himage hobjects, by simp⟩
    next u hmake =>
      rcases makeModules_cases hhead hmake with ⟨-, rfl⟩ | ⟨hb, -⟩
      · have hobjects : ∀ f, compile t c f = t.objects f ∨ compile t c f = compile t c f :=
          fun f => Or.inr rfl
        have hu := ht.compiled himage hobjects
        by_cases hpack : y.pack = true
        · rw [if_pos hpack] at h
          cases h
          exact ⟨⟨hu.config_old, hu.image_old, hu.kernel_old, hu.fresh, hu.objects⟩, fun _ =>
            ⟨c, _, ⟨mc, mk, hconfig, hkernel, hle⟩, himage, rfl, linked_compile ht himage⟩⟩
        · rw [if_neg hpack] at h
          cases h
          exact ⟨hu, by simp⟩
      · cases hb
  · rw [if_neg hready] at h
    cases h
    exact ⟨ht, by simp⟩

omit [DecidableEq κ] [DecidableEq σ] [DecidableEq φ] in
/-- A kernel that is not stale is that of the `.config`. -/
theorem current_of_not_stale (ht : Sound t) (h : kernelStale t ≠ true) : ∃ c, Current t c := by
  unfold kernelStale at h
  split at h
  next mk mc hkernel hconfig hsymvers =>
    obtain ⟨⟨k, mk'⟩, hk, rfl⟩ := Option.map_eq_some_iff.mp hkernel
    obtain ⟨⟨c, mc'⟩, hc, rfl⟩ := Option.map_eq_some_iff.mp hconfig
    have hle : mc' ≤ mk' := by simpa using h
    obtain ⟨rfl, -, -⟩ := ht.fresh c mc' k mk' hc hk hle
    exact ⟨c, mc', mk', hc, hk, hle⟩
  next => exact absurd rfl h

omit [DecidableEq φ] in
theorem buildKstep_sound {y : KstepBuild φ κ} (h : buildKstep t y = some (b, t'))
    (hclean : kernelStale t = true → Orderly t false y.linux) (ht : Sound t) :
    Sound t' ∧ (b = true → Packed t') := by
  unfold buildKstep at h
  split_ifs at h with hstale
  · split at h
    · cases h
    next u hlinux =>
      cases h
      exact ⟨buildLinux_failed hlinux (hclean hstale) ht, by simp⟩
    next u hlinux =>
      obtain ⟨hu, ⟨c, hcurrent⟩, -⟩ := buildLinux_done hlinux (hclean hstale) ht
      exact buildRest_sound h hu hcurrent
  · obtain ⟨c, hcurrent⟩ := current_of_not_stale ht hstale
    exact buildRest_sound h ht hcurrent

theorem step_sound {e : Event φ κ σ} (hclean : Clean t e) (h : step t e = some t')
    (ht : Sound t) : Sound t' := by
  cases e with
  | edit f s =>
      cases h
      exact ⟨ht.config_old, ht.image_old, ht.kernel_old, ht.fresh, ht.objects⟩
  | editConfig c =>
      cases h
      exact ht.writeConfig c
  | buildLinux r x =>
      obtain ⟨⟨b, u⟩, hlinux, rfl⟩ := Option.map_eq_some_iff.mp h
      cases b with
      | false => exact buildLinux_failed hlinux hclean ht
      | true => exact (buildLinux_done hlinux hclean ht).1
  | buildKstep y =>
      obtain ⟨⟨b, u⟩, hkstep, rfl⟩ := Option.map_eq_some_iff.mp h
      exact (buildKstep_sound hkstep hclean ht).1

omit [DecidableEq κ] [DecidableEq σ] [DecidableEq φ] in
theorem checkedOut_sound (source : φ → Option σ) : Sound (checkedOut (κ := κ) source) :=
  ⟨by simp [checkedOut], by simp [checkedOut], by simp [checkedOut], by simp [checkedOut],
    by simp [checkedOut]⟩

/-- Over every sequence of edits and builds of a tree, with any step of any build failing, in which
a build of the kernel that fails leaves the image and its copy as they were and the module's mirror
can be removed when the image is another: a `build_kstep` that ends well packs the module that a
build from nothing would, every source of it compiled as it is now and for the kernel copied out,
which is the kernel of the `.config`. -/
theorem built_packs_current (source : φ → Option σ) (l : List (Event φ κ σ)) (t t' : Tree φ κ σ)
    (y : KstepBuild φ κ) (h : run step (checkedOut source) l = some t)
    (hclean : Always step Clean (checkedOut source) l)
    (hlast : kernelStale t = true → Orderly t false y.linux)
    (hbuild : buildKstep t y = some (true, t')) : Packed t' := by
  have ht : Sound t :=
    run_invariant_of_always (fun _ _ _ hP hstep hs => step_sound hP hstep hs) h hclean
      (checkedOut_sound source)
  exact (buildKstep_sound hbuild hlast ht).2 rfl

def twoSources : Bool → Option ℕ := fun _ => some 0

def allWell (c : ℕ) : LinuxBuild Bool ℕ := ⟨.merged c, .done true, .copied fun _ => false⟩

def kstepWell (c : ℕ) : KstepBuild Bool ℕ := ⟨allWell c, true, true, .compiled, true⟩

/-- A build, an edit of one source, and a reconfigured build that fails in `make`. -/
def reconfigured : List (Event Bool ℕ ℕ) :=
  [.buildKstep (kstepWell 1), .edit true (some 5),
    .buildLinux true ⟨.merged 2, .failed true false, .copied fun _ => false⟩]

theorem built_packs_current_reconfigured : ∃ t t' : Tree Bool ℕ ℕ,
    run step (checkedOut twoSources) reconfigured = some t ∧
      buildKstep t (kstepWell 3) = some (true, t') ∧ Packed t' := by
  refine ⟨_, _, rfl, rfl, built_packs_current twoSources reconfigured _ _ (kstepWell 3) rfl ?_ ?_
    rfl⟩
  · refine ⟨fun _ => ⟨fun t' h => ?_, fun t' left _ _ hleft => ?_⟩, trivial,
      ⟨fun t' h => ?_, fun t' left h => ?_⟩, trivial⟩
    · cases h
    · cases hleft
      exact fun _ => rfl
    · cases h
      exact ⟨rfl, rfl⟩
    · cases h
  · refine fun _ => ⟨fun t' h => ?_, fun t' left _ _ hleft => ?_⟩
    · cases h
    · cases hleft
      exact fun _ => rfl

end KStep.Builds
