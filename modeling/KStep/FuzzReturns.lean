import KStep.FuzzLoops
import Mathlib.Data.List.GetD

/-!
# What the decoder returns

Whatever the entry asks for, the loops return what the decoder of `Fuzz` describes if they return.
With one CPU a remainder by the number of test CPUs stops them, with more than 65 a shift.
-/

namespace KStep.Fuzz

open CString Trim Cli Checked

variable {bug : Bug} {d : Decoder}

theorem verbChecked_mayReturn (bug : Bug) (r : Record) :
    MayReturn (bug.verbChecked r) (bug.verbAt r) := by
  have hlen : (generalVerbs ++ bug.verbs).length = generalVerbs.length + bug.verbs.length :=
    List.length_append
  unfold Bug.verbChecked Bug.verbAt
  refine (add_mayReturn _ _).bind ((rem_mayReturn _ _).bind ?_)
  simp only [hlen]
  split_ifs with hgeneral
  · rw [List.getD_append _ _ _ _ hgeneral]
    exact index_mayReturn _ _ _
  · rw [List.getD_append_right _ _ _ _ (Nat.le_of_not_lt hgeneral)]
    exact (sub_mayReturn _ _).bind (index_mayReturn _ _ _)

theorem taskChecked_mayReturn (d : Decoder) (a : ℕ) : MayReturn (d.taskChecked a) (d.task a) :=
  (rem_mayReturn _ _).bind (index_mayReturn _ _ _)

theorem cgroupChecked_mayReturn (d : Decoder) (b : ℕ) :
    MayReturn (d.cgroupChecked b) (d.cgroup b) :=
  (rem_mayReturn _ _).bind (index_mayReturn _ _ _)

theorem cpuChecked_mayReturn (bug : Bug) (b : ℕ) :
    MayReturn (cpuChecked bug.testCpus b) (bug.cpu b) :=
  (rem_mayReturn _ _).bind (add_mayReturn _ _)

theorem pickChecked_mayReturn (b : ℕ) (is : List ℕ) :
    MayReturn (pickChecked b is) (is.filter fun i => b.testBit i) := by
  induction is with
  | nil => exact mayReturn_ok
  | cons i is ih =>
      have hbit : b >>> i % 2 = 1 ↔ b.testBit i = true := by
        rw [Nat.testBit_eq_decide_div_mod_eq, Nat.shiftRight_eq_div_pow, decide_eq_true_iff]
      refine (shr_mayReturn b i).bind (ih.bind ?_)
      simp only [hbit, List.filter_cons]
      exact mayReturn_ok

theorem mapM_add_mayReturn (is : List ℕ) : MayReturn (is.mapM (add · 1)) (is.map (· + 1)) := by
  induction is with
  | nil => exact mayReturn_ok
  | cons i is ih =>
      rw [List.mapM_cons, List.map_cons]
      exact (add_mayReturn i 1).bind (ih.bind mayReturn_ok)

theorem cpusChecked_mayReturn (bug : Bug) (b : ℕ) :
    MayReturn (cpusChecked bug.testCpus b) (bug.cpus b) := by
  refine (pickChecked_mayReturn b _).bind ?_
  simp only [Bug.cpus]
  split_ifs
  · exact (cpuChecked_mayReturn bug b).bind mayReturn_ok
  · exact mapM_add_mayReturn _

theorem pushTask_mayReturn (d : Decoder) : MayReturn d.pushTask (d.addTasks 1) :=
  (add_mayReturn _ _).bind ((push_mayReturn _ _ _).bind mayReturn_ok)

theorem addTasks_succ (d : Decoder) (n : ℕ) : d.addTasks (n + 1) = (d.addTasks n).addTasks 1 := by
  have hrange : List.range' (d.ntasks + 1) (n + 1) =
      List.range' (d.ntasks + 1) n ++ List.range' (d.ntasks + n + 1) 1 := by
    rw [List.range'_1_concat, List.range'_one, Nat.add_right_comm]
  simp only [Decoder.addTasks, hrange, List.append_assoc, Nat.add_assoc]

theorem pushTasks_mayReturn (d : Decoder) (n : ℕ) : MayReturn (d.pushTasks n) (d.addTasks n) := by
  induction n with
  | zero =>
      have hnone : d.addTasks 0 = d := by simp [Decoder.addTasks]
      rw [hnone]
      exact mayReturn_ok
  | succ n ih =>
      rw [addTasks_succ]
      exact ih.bind (pushTask_mayReturn _)

theorem pushCgroup_mayReturn (d : Decoder) (path : Line) :
    MayReturn (d.pushCgroup path) { d with cgroups := d.cgroups ++ [path] } :=
  (push_mayReturn _ _ _).bind mayReturn_ok

theorem setupChecked_mayReturn (d : Decoder) (line : Line) :
    MayReturn (d.setupChecked line) (d.setup line) := by
  unfold Decoder.setupChecked Decoder.setup
  simp only
  split_ifs
  · exact pushTasks_mayReturn d _
  · exact pushCgroup_mayReturn d _
  · exact mayReturn_ok

theorem setupProgramChecked_mayReturn (d : Decoder) (lines : List Line) :
    MayReturn (setupProgramChecked d lines)
      (lines.foldl Decoder.setup d, setupProgram d lines) := by
  induction lines generalizing d with
  | nil => exact mayReturn_ok
  | cons line lines ih =>
      exact (setupChecked_mayReturn d line).bind ((ih _).bind mayReturn_ok)

theorem recordChecked_mayReturn (bug : Bug) (d : Decoder) (r : Record) :
    MayReturn (bug.recordChecked bug.testCpus d r) (bug.record d r) := by
  unfold Bug.recordChecked Bug.record
  refine (verbChecked_mayReturn bug r).bind ?_
  simp only
  by_cases hidle : ((armOf (bug.verbAt r)).needsTask && d.alive.isEmpty) = true
  · rw [if_pos hidle, if_pos hidle]
    exact mayReturn_ok
  rw [if_neg hidle, if_neg hidle]
  have htask := taskChecked_mayReturn d
  have hcgroup := cgroupChecked_mayReturn d
  cases armOf (bug.verbAt r) with
  | tick => exact mayReturn_ok
  | create => exact (pushTask_mayReturn d).bind mayReturn_ok
  | cpuFreq =>
      exact (cpuChecked_mayReturn bug _).bind ((add_mayReturn _ _).bind mayReturn_ok)
  | policyFair =>
      exact (htask _).bind ((rem_mayReturn _ _).bind ((index_mayReturn _ _ _).bind
        ((subInt_mayReturn _ _).bind mayReturn_ok)))
  | policyRt =>
      exact (htask _).bind ((rem_mayReturn _ _).bind ((index_mayReturn _ _ _).bind
        ((add_mayReturn _ _).bind mayReturn_ok)))
  | affinity => exact (cpusChecked_mayReturn bug _).bind ((htask _).bind mayReturn_ok)
  | kill => exact (htask _).bind mayReturn_ok
  | cgroupCreate =>
      have hcreate (parent : Line) := (add_mayReturn d.cgroups.length 1).bind
        (f := fun n => d.pushCgroup (cgroupPath parent n) >>= fun d' =>
          .ok (d', say "cgroup-create".toList [cgroupPath parent n]))
        ((pushCgroup_mayReturn d _).bind mayReturn_ok)
      by_cases hroot : d.cgroups = [] ∨ r.b.toNat % 2 = 0
      · simp only [if_pos hroot, Decoder.newCgroup]
        exact hcreate []
      · simp only [if_neg hroot, Decoder.newCgroup]
        exact (hcgroup _).bind (hcreate _)
  | cgroupWeight =>
      simp only
      split_ifs
      · exact mayReturn_ok
      · exact (add_mayReturn _ _).bind ((hcgroup _).bind mayReturn_ok)
  | cgroupDestroy =>
      simp only
      split_ifs
      · exact mayReturn_ok
      · exact (hcgroup _).bind mayReturn_ok
  | cgroupAttach =>
      refine (add_mayReturn _ _).bind ((rem_mayReturn _ _).bind ?_)
      rcases r.b.toNat % (d.cgroups.length + 1) with _ | g
      · exact (htask _).bind mayReturn_ok
      · exact (sub_mayReturn _ _).bind ((index_mayReturn _ _ _).bind ((htask _).bind mayReturn_ok))
  | other => exact (htask _).bind mayReturn_ok

theorem recordProgramChecked_mayReturn (bug : Bug) (d : Decoder) (rs : List Record) :
    MayReturn (recordProgramChecked bug bug.testCpus d rs)
      (rs.foldl (fun d r => (bug.record d r).1) d, recordProgram bug d rs) := by
  induction rs generalizing d with
  | nil => exact mayReturn_ok
  | cons r rs ih => exact (recordChecked_mayReturn bug d r).bind ((ih _).bind mayReturn_ok)

/-- A program that the loops return is the one the decoder describes. -/
theorem decodeChecked_mayReturn (bytes : List UInt8) (bug : Bug) :
    MayReturn (decodeChecked bytes bug) (decode bytes bug) := by
  unfold decodeChecked decode
  by_cases hverbs : Fits stringBytes bug.verbs.length
  · simp only [hverbs, not_true_eq_false, if_false]
    exact (sub_mayReturn _ _).bind ((setupProgramChecked_mayReturn _ _).bind
      ((recordProgramChecked_mayReturn bug _ _).bind mayReturn_ok))
  · simp only [hverbs, not_false_eq_true, if_true]
    exact fun _ h => by cases h

end KStep.Fuzz
