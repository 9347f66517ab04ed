import KStep.Runs
import Mathlib.Logic.Function.Basic
import Mathlib.Order.Basic

/-!
# Snapshots of a boot

`Build::snapshot` reuses the stream of an earlier call when it is newer than the kernel and the
initramfs, and takes a new one otherwise: it boots, has the monitor write the stream, asks whether
the migration completed and writes the ready line next to it. Each of these can fail, and a failure
leaves what has been written so far.
-/

namespace KStep.Snapshot

open Runs

/-- A boot: the images it ran, by version, and its ready line. -/
structure Boot where
  kernel : ℕ
  rootfs : ℕ
  ready : ℕ
  deriving DecidableEq, Repr

structure Image where
  version : ℕ
  mtime : ℕ
  deriving DecidableEq, Repr

/-- A migration stream of a boot, whole or cut off. -/
inductive Stream
  | complete (b : Boot)
  | cut (b : Boot)
  deriving DecidableEq, Repr

abbrev Key := ℕ × ℕ

/-- The directory of a build. A sidecar that is missing or not a whole ready line is `none`;
`returned` is the snapshot whose path the last call returned. The clock dates the files. -/
structure Dir where
  clock : ℕ
  kernel : Option Image
  rootfs : Option Image
  stream : Key → Option (Stream × ℕ)
  sidecar : Key → Option ℕ
  returned : Option Key

inductive Taking
  /-- the boot or the monitor fails before the stream is opened -/
  | unstarted
  /-- the stream is cut off -/
  | migrating
  /-- the stream is complete and the sidecar not touched: the status is not read, or the process
  dies -/
  | streamed
  /-- the sidecar is cut off -/
  | writing
  /-- the sidecar is written; the kernel log is copied or not -/
  | taken (copied : Bool)
  deriving DecidableEq, Repr

def Image.olderThan (t : ℕ) : Option Image → Bool
  | none => false
  | some i => i.mtime < t

def fresh (d : Dir) (key : Key) : Bool :=
  match d.stream key with
  | none => false
  | some (_, t) => [d.kernel, d.rootfs].all (Image.olderThan t)

/-- `Session::start` on the cold boot and `Session::snapshot`, with the ready line of that boot. -/
def takeSnapshot (d : Dir) (key : Key) (ready : ℕ) (taking : Taking) : Dir :=
  match d.kernel, d.rootfs with
  | some kernel, some rootfs =>
      let b : Boot := ⟨kernel.version, rootfs.version, ready⟩
      let write (s : Stream) := Function.update d.stream key (some (s, d.clock))
      match taking with
      | .unstarted => { d with returned := none }
      | .migrating => { d with stream := write (.cut b), returned := none }
      | .streamed => { d with stream := write (.complete b), returned := none }
      | .writing => { d with
          stream := write (.complete b)
          sidecar := Function.update d.sidecar key none
          returned := none }
      | .taken copied => { d with
          stream := write (.complete b)
          sidecar := Function.update d.sidecar key (some ready)
          returned := if copied then some key else none }
  | _, _ => { d with returned := none }

inductive Event
  | buildKernel (version : ℕ)
  | buildRootfs (version : ℕ)
  /-- `Build::snapshot`; when it takes a new one, the ready line and how far it gets -/
  | snapshot (key : Key) (ready : ℕ) (taking : Taking)
  deriving DecidableEq, Repr

/-- An event that is over at the time `now`; the clock never goes back. -/
def step (d : Dir) (e : ℕ × Event) : Option Dir :=
  if e.1 < d.clock then none
  else
    let d := { d with clock := e.1 }
    match e.2 with
    | .buildKernel version => some { d with kernel := some ⟨version, e.1⟩, returned := none }
    | .buildRootfs version => some { d with rootfs := some ⟨version, e.1⟩, returned := none }
    | .snapshot key ready taking =>
        some (if fresh d key then { d with returned := some key }
          else takeSnapshot d key ready taking)

/-- The snapshot is a complete migration of the current kernel and initramfs, with its own ready
line next to it. -/
def Resumable (d : Dir) (key : Key) : Prop :=
  ∃ b t, d.stream key = some (.complete b, t) ∧ d.sidecar key = some b.ready ∧
    d.kernel.map Image.version = some b.kernel ∧ d.rootfs.map Image.version = some b.rootfs

/-- Taking a snapshot ends before the stream is opened or after the sidecar is written. -/
def Taking.whole : Taking → Bool
  | .unstarted => true
  | .taken _ => true
  | _ => false

/-- No snapshot that is not fresh fails once it has begun to write the stream. -/
def Uninterrupted (d : Dir) (e : ℕ × Event) : Prop :=
  ∀ key ready taking, e.2 = .snapshot key ready taking → fresh d key = false → taking.whole = true

/-- Each stream is complete and has its sidecar, and an image older than it is the one it ran. -/
structure Sound (d : Dir) : Prop where
  stream : ∀ key s t, d.stream key = some (s, t) → t ≤ d.clock ∧ ∃ b, s = .complete b ∧
    d.sidecar key = some b.ready ∧
    (∀ i, d.kernel = some i → i.mtime < t → i.version = b.kernel) ∧
    (∀ i, d.rootfs = some i → i.mtime < t → i.version = b.rootfs)
  returned : ∀ key, d.returned = some key → Resumable d key

variable {d d' : Dir} {e : ℕ × Event} {l : List (ℕ × Event)} {key : Key}

theorem olderThan_some {i : Option Image} {t : ℕ} (h : Image.olderThan t i = true) :
    ∃ j, i = some j ∧ j.mtime < t := by
  rcases i with _ | j
  · cases h
  · exact ⟨j, rfl, of_decide_eq_true h⟩

theorem fresh_cases (h : fresh d key = true) :
    ∃ s t kernel rootfs, d.stream key = some (s, t) ∧ d.kernel = some kernel ∧ kernel.mtime < t ∧
      d.rootfs = some rootfs ∧ rootfs.mtime < t := by
  unfold fresh at h
  split at h
  · cases h
  · rename_i s t hstream
    simp only [List.all_cons, List.all_nil, Bool.and_true, Bool.and_eq_true] at h
    obtain ⟨kernel, hkernel, hk⟩ := olderThan_some h.1
    obtain ⟨rootfs, hrootfs, hr⟩ := olderThan_some h.2
    exact ⟨s, t, kernel, rootfs, hstream, hkernel, hk, hrootfs, hr⟩

/-- Time passes, or a call fails without a trace. -/
theorem Sound.wait (h : Sound d) {now : ℕ} (hnow : d.clock ≤ now) :
    Sound { d with clock := now, returned := none } := by
  refine ⟨fun key s t hs => ?_, fun key hkey => (by cases hkey)⟩
  obtain ⟨ht, hb⟩ := h.stream key s t hs
  exact ⟨ht.trans hnow, hb⟩

theorem Sound.buildKernel (h : Sound d) (version : ℕ) :
    Sound { d with kernel := some ⟨version, d.clock⟩, returned := none } := by
  refine ⟨fun key s t hs => ?_, fun key hkey => (by cases hkey)⟩
  obtain ⟨ht, b, hcomplete, hsidecar, -, hrootfs⟩ := h.stream key s t hs
  refine ⟨ht, b, hcomplete, hsidecar, fun i hi hlt => ?_, hrootfs⟩
  cases hi
  exact absurd hlt (not_lt.mpr ht)

theorem Sound.buildRootfs (h : Sound d) (version : ℕ) :
    Sound { d with rootfs := some ⟨version, d.clock⟩, returned := none } := by
  refine ⟨fun key s t hs => ?_, fun key hkey => (by cases hkey)⟩
  obtain ⟨ht, b, hcomplete, hsidecar, hkernel, -⟩ := h.stream key s t hs
  refine ⟨ht, b, hcomplete, hsidecar, hkernel, fun i hi hlt => ?_⟩
  cases hi
  exact absurd hlt (not_lt.mpr ht)

theorem Sound.reuse (h : Sound d) (hfresh : fresh d key = true) :
    Sound { d with returned := some key } := by
  refine ⟨h.stream, fun key' hkey => ?_⟩
  cases hkey
  obtain ⟨s, t, kernel, rootfs, hs, hkernel, hk, hrootfs, hr⟩ := fresh_cases hfresh
  obtain ⟨-, b, rfl, hsidecar, hkernel', hrootfs'⟩ := h.stream key s t hs
  refine ⟨b, t, hs, hsidecar, ?_, ?_⟩
  · simp only [hkernel, Option.map_some, hkernel' kernel hkernel hk]
  · simp only [hrootfs, Option.map_some, hrootfs' rootfs hrootfs hr]

theorem Sound.take (h : Sound d) {ready : ℕ} {taking : Taking} (hwhole : taking.whole = true) :
    Sound (takeSnapshot d key ready taking) := by
  have hnothing : Sound { d with returned := none } := h.wait le_rfl
  unfold takeSnapshot
  split
  · rename_i kernel rootfs hkernel hrootfs
    rcases taking with _ | _ | _ | _ | copied
    · exact hnothing
    · cases hwhole
    · cases hwhole
    · cases hwhole
    · refine ⟨fun key' s t hs => ?_, fun key' hkey => ?_⟩
      · by_cases hkey : key' = key
        · subst hkey
          simp only [Function.update_self, Option.some.injEq, Prod.mk.injEq] at hs
          obtain ⟨rfl, rfl⟩ := hs
          refine ⟨le_rfl, _, rfl, by simp only [Function.update_self], fun i hi _ => ?_,
            fun i hi _ => ?_⟩
          · cases hkernel.symm.trans hi
            rfl
          · cases hrootfs.symm.trans hi
            rfl
        · simp only [Function.update_of_ne hkey] at hs ⊢
          exact h.stream key' s t hs
      · dsimp only at hkey
        split_ifs at hkey with hcopied
        cases hkey
        refine ⟨⟨kernel.version, rootfs.version, ready⟩, d.clock, ?_, ?_, ?_, ?_⟩
        · simp only [Function.update_self]
        · simp only [Function.update_self]
        · simp only [hkernel, Option.map_some]
        · simp only [hrootfs, Option.map_some]
  · exact hnothing

theorem step_sound (hP : Uninterrupted d e) (h : step d e = some d') (hd : Sound d) : Sound d' := by
  unfold step at h
  split_ifs at h with hnow
  have hclock := hd.wait (not_lt.mp hnow)
  rcases e with ⟨now, version | version | ⟨key, ready, taking⟩⟩
  · cases h
    exact hclock.buildKernel version
  · cases h
    exact hclock.buildRootfs version
  · cases h
    have hd' : Sound { d with clock := now, returned := d.returned } :=
      ⟨hclock.stream, hd.returned⟩
    by_cases hfresh : fresh d key = true
    · rw [if_pos (show fresh { d with clock := now } key = true from hfresh)]
      exact hd'.reuse hfresh
    · rw [if_neg (show ¬fresh { d with clock := now } key = true from hfresh)]
      exact hd'.take (hP key ready taking rfl (by simpa using hfresh))

/-- Over any sequence of calls, rebuilds and failures in which no snapshot fails once it has begun
to write the stream, whatever path `Build::snapshot` returns can be resumed: the stream is a
complete migration of the current kernel and initramfs and the sidecar is its ready line. -/
theorem snapshot_resumable (d d' : Dir) (hnone : ∀ key, d.stream key = none)
    (hreturned : d.returned = none) (l : List (ℕ × Event)) (h : run step d l = some d')
    (hP : Always step Uninterrupted d l) (key : Key) (hkey : d'.returned = some key) :
    Resumable d' key := by
  have hsound : Sound d := by
    refine ⟨fun key s t hs => ?_, fun key hkey => ?_⟩
    · rw [hnone key] at hs
      cases hs
    · rw [hreturned] at hkey
      cases hkey
  exact (run_invariant_of_always (fun s e t => step_sound) h hP hsound).returned key hkey

def Dir.empty : Dir := ⟨0, none, none, fun _ => none, fun _ => none, none⟩

def takenOnce : List (ℕ × Event) :=
  [(1, .buildKernel 1), (1, .buildRootfs 1), (2, .snapshot (2, 512) 7 (.taken true)),
    (3, .snapshot (2, 512) 7 .unstarted)]

theorem snapshot_resumable_taken_once : ∃ d', run step Dir.empty takenOnce = some d' ∧
    d'.returned = some (2, 512) ∧ Resumable d' (2, 512) := by
  refine ⟨_, rfl, rfl, ?_⟩
  refine snapshot_resumable Dir.empty _ (fun _ => rfl) rfl takenOnce rfl ?_ (2, 512) rfl
  refine always_of_forall (fun e he s key ready taking hevent _ => ?_) _
  simp only [takenOnce, List.mem_cons, List.not_mem_nil, or_false] at he
  rcases he with rfl | rfl | rfl | rfl <;> cases hevent <;> rfl

/-- The migration is cut off, and the next call returns the stream it left. -/
theorem cut_stream_returned : ∃ d', run step Dir.empty
    [(1, .buildKernel 1), (1, .buildRootfs 1), (2, .snapshot (2, 512) 7 .migrating),
      (3, .snapshot (2, 512) 8 .unstarted)] = some d' ∧
    d'.returned = some (2, 512) ∧ ¬Resumable d' (2, 512) := by
  refine ⟨_, rfl, rfl, ?_⟩
  rintro ⟨b, t, hstream, -⟩
  cases hstream

end KStep.Snapshot
