import KStep.Pipe

/-!
# No task sleeps over a byte

A write into an empty pipe wakes a reader asleep in it, and a reader that has slept hands the wakeup
on when it leaves bytes behind. Then a byte and a sleeping reader are never there together unless
some reader is awake and about to look, however the tasks are scheduled, and whatever wakeups
interrupt them or bytes other tasks take in between.
-/

namespace KStep.Pipe

open RingQueue Runs Cli

def Waiting (m : Machine) : Prop := ∃ q < m.ntasks, (m.tasks q).place = .asleep .chanRead

def Looking (m : Machine) : Prop := ∃ q < m.ntasks, (m.tasks q).place = .reader

/-- What the pipe does about its readers: a write finding it empty wakes one, and a reader that
has slept and leaves bytes wakes another. -/
def HandsOn (s : Session × List Op) : SessionLabel → Prop
  | .ctl (.env (_, .perform p _ w)) =>
      (s.1.machine.tasks p).place = .user (some .chanWrite) → s.1.machine.tokens = 0 →
        Waiting s.1.machine → w.isSome
  | .ctl (.env (_, .look _ _ w)) => 1 < s.1.machine.tokens → Waiting s.1.machine → w.isSome
  | _ => True

instance (m : Machine) : Decidable (Waiting m) :=
  inferInstanceAs (Decidable (∃ q < m.ntasks, _))

instance decidableHandsOn (s : Session × List Op) : ∀ e, Decidable (HandsOn s e)
  | .ctl (.env (_, .perform _ _ _)) | .ctl (.env (_, .look _ _ _)) =>
      inferInstanceAs (Decidable (_ → _))
  | .ctl (.env (_, .leave _)) | .ctl (.env (_, .handle _)) | .ctl (.env (_, .resume _))
  | .ctl (.env (_, .trap _)) | .ctl (.env (_, .read _ _)) | .ctl (.env (_, .schedule _))
  | .ctl (.env (_, .ttwu _ _)) | .ctl (.op _ _) | .line _ => isTrue trivial

/-- The wakeup of a byte in the pipe is on its way to whoever sleeps. -/
def Handed (m : Machine) : Prop := 0 < m.tokens → Waiting m → Looking m

/-- The wakeup is on its way, and a task about to look gets to run. -/
structure Ready (m : Machine) : Prop where
  handed : Handed m
  seated : ∀ q, Seated (m.tasks q)

variable {m m' : Machine} {c p : ℕ} {t : Task} {k : Pick} {w : Option Wake} {act : Act}

theorem Aside.waiting (h : Aside m m') (hw : Waiting m') : Waiting m := by
  obtain ⟨q, hq, hs⟩ := hw
  exact ⟨q, h.ntasks ▸ hq, (h.task q).asleep hs⟩

theorem Aside.looking (h : Aside m m') (hl : Looking m) : Looking m' := by
  obtain ⟨q, hq, hr⟩ := hl
  exact ⟨q, h.ntasks.symm ▸ hq, (h.task q).reader hr⟩

theorem Aside.ready (h : Aside m m') (hm : Ready m) : Ready m' where
  handed htok hwait := h.looking (hm.handed (h.tokens ▸ htok) (h.waiting hwait))
  seated q := (h.task q).seated (hm.seated q)

end KStep.Pipe
