import Mathlib.Analysis.Convex.SpecificFunctions.Basic
import Mathlib.Tactic.Linarith
import Mathlib.Tactic.Ring

/-!
# The pelt rule

From one tick to the next, on a CPU that the RT and DL signals alone saturated, the two signals
decay no faster than a half-life of 32 ms of task-clock time. `check` compares the utilization with
a floor made of a shift, for the whole half-lives, and of a chord for the rest, all in 64-bit
arithmetic with a slack for the rounding. A utilization that only halves every half-life, or that
decays slower, is never accused.
-/

namespace KStep.Pelt

def nsecPerMsec : UInt64 := 1000000

/-- `32 * NSEC_PER_MSEC`, the half-life of the signals. -/
def halfLife : UInt64 := 32 * nsecPerMsec

def bitsPerLong : UInt64 := 64

def loadAvgMax : UInt32 := 47742

def schedCapacityShift : UInt32 := 10

/-- What `check` reads of a run queue: `avg_rt`, `avg_dl` and `clock_task`. -/
structure Rq where
  rtUtilAvg : UInt64
  rtUtilSum : UInt32
  dlUtilAvg : UInt64
  dlUtilSum : UInt32
  clockTask : UInt64

structure PeltObs where
  util : UInt64
  clockTask : UInt64
  saturated : Bool
  deriving DecidableEq

def divider : UInt32 := ((loadAvgMax - 1024) <<< schedCapacityShift) - loadAvgMax

def observe (rq : Rq) : PeltObs where
  util := rq.rtUtilAvg + rq.dlUtilAvg
  clockTask := rq.clockTask
  saturated := divider ≤ rq.rtUtilSum + rq.dlUtilSum

structure Warning where
  cpu : ℕ
  last : UInt64
  cur : UInt64
  dt : UInt64
  floor : UInt64
  deriving DecidableEq

def Warning.message (w : Warning) : String :=
  s!"rt+dl util on saturated cpu {w.cpu} fell {w.last} -> {w.cur} over {w.dt} ns, " ++
    s!"under the {w.floor} decay floor"

/-- The utilization left after the whole half-lives of `dt`. -/
def halved (last dt : UInt64) : UInt64 :=
  if bitsPerLong ≤ dt / halfLife then 0 else last >>> (dt / halfLife)

/-- The chord under the rest of the decay, in units of 1/1024. -/
def chord (dt : UInt64) : UInt64 := 1024 - dt % halfLife * 1024 / halfLife

def decayFloor (last dt : UInt64) : UInt64 := (halved last dt * chord dt) >>> 10

def verdict (cpu : ℕ) (last cur : PeltObs) : Option Warning :=
  if last.saturated && decide (last.clockTask < cur.clockTask) then
    let dt := cur.clockTask - last.clockTask
    let floor := decayFloor last.util dt
    if cur.util + 16 + floor / 16 < floor then some ⟨cpu, last.util, cur.util, dt, floor⟩ else none
  else none

def check (cpu : ℕ) (rq : Rq) (last : PeltObs) : Option Warning × PeltObs :=
  (verdict cpu last (observe rq), observe rq)

def onTickEnd (ncpus : ℕ) (rq : ℕ → Rq) (last : ℕ → PeltObs) : List Warning × (ℕ → PeltObs) :=
  ((List.range' 1 ncpus).filterMap fun cpu => (check cpu (rq cpu) (last cpu)).1,
    fun cpu => if 1 ≤ cpu ∧ cpu ≤ ncpus then (check cpu (rq cpu) (last cpu)).2 else last cpu)

theorem halfLife_toNat : halfLife.toNat = 32000000 := by decide

/-- The exponential lies under its chord: `2 ^ (r / T) ≤ 1 + r / T`, as integers. -/
theorem two_pow_mul_pow_le {T r : ℕ} (hT : 0 < T) (hr : r ≤ T) : 2 ^ r * T ^ T ≤ (T + r) ^ T := by
  have hT' : (0 : ℝ) < T := by exact_mod_cast hT
  have hr' : (r : ℝ) ≤ T := by exact_mod_cast hr
  have hroot : ((1 : ℝ) + 1) ^ ((r : ℝ) / T) ≤ 1 + (r : ℝ) / T * 1 :=
    rpow_one_add_le_one_add_mul_self (by norm_num) (by positivity)
      ((div_le_one hT').mpr hr')
  have hpow : (((1 : ℝ) + 1) ^ ((r : ℝ) / T)) ^ T = 2 ^ r := by
    rw [← Real.rpow_mul_natCast (by norm_num), div_mul_cancel₀ _ hT'.ne', Real.rpow_natCast]
    norm_num
  have hmain : (2 : ℝ) ^ r * (T : ℝ) ^ T ≤ ((T : ℝ) + r) ^ T := by
    calc (2 : ℝ) ^ r * (T : ℝ) ^ T
        = (((1 : ℝ) + 1) ^ ((r : ℝ) / T) * T) ^ T := by rw [mul_pow, hpow]
      _ ≤ ((1 + (r : ℝ) / T * 1) * T) ^ T := by gcongr
      _ = ((T : ℝ) + r) ^ T := by
          congr 1
          field_simp
  exact_mod_cast hmain

/-- A utilization that at most halves every `T` stays above the chord. -/
theorem mul_le_of_legal_decay {T dt last cur : ℕ} (hT : 0 < T)
    (hlegal : last ^ T ≤ cur ^ T * 2 ^ dt) :
    last * T ≤ cur * 2 ^ (dt / T) * (T + dt % T) := by
  have hpow : (last * T) ^ T ≤ (cur * 2 ^ (dt / T) * (T + dt % T)) ^ T := by
    calc (last * T) ^ T = last ^ T * T ^ T := mul_pow _ _ _
      _ ≤ cur ^ T * 2 ^ dt * T ^ T := Nat.mul_le_mul_right _ hlegal
      _ = cur ^ T * (2 ^ (dt / T)) ^ T * (2 ^ (dt % T) * T ^ T) := by
          conv_lhs => rw [← Nat.div_add_mod dt T, pow_add, pow_mul']
          ring
      _ ≤ cur ^ T * (2 ^ (dt / T)) ^ T * (T + dt % T) ^ T :=
          Nat.mul_le_mul_left _ (two_pow_mul_pow_le hT (Nat.mod_lt _ hT).le)
      _ = (cur * 2 ^ (dt / T) * (T + dt % T)) ^ T := by rw [mul_pow, mul_pow]
  exact (Nat.pow_le_pow_iff_left hT.ne').mp hpow

theorem halved_toNat_mul_le (last dt : UInt64) :
    (halved last dt).toNat * 2 ^ (dt.toNat / halfLife.toNat) ≤ last.toNat := by
  rw [halved]
  split
  · simp
  next hlt =>
    have hshift : dt.toNat / halfLife.toNat < 64 := by
      rw [UInt64.le_iff_toNat_le, UInt64.toNat_div] at hlt
      exact Nat.lt_of_not_le hlt
    rw [UInt64.toNat_shiftRight, UInt64.toNat_div, Nat.mod_eq_of_lt hshift,
      Nat.shiftRight_eq_div_pow]
    exact Nat.div_mul_le_self _ _

theorem halved_toNat_le (last dt : UInt64) : (halved last dt).toNat ≤ last.toNat :=
  (Nat.le_mul_of_pos_right _ (Nat.two_pow_pos _)).trans (halved_toNat_mul_le last dt)

theorem rem_mul_toNat (dt : UInt64) :
    (dt % halfLife * 1024).toNat = dt.toNat % halfLife.toNat * 1024 := by
  have hrem : dt.toNat % halfLife.toNat < 32000000 := by
    rw [halfLife_toNat]
    exact Nat.mod_lt _ (by norm_num)
  rw [UInt64.toNat_mul, UInt64.toNat_mod]
  exact Nat.mod_eq_of_lt (by change _ * 1024 < _; omega)

theorem chord_toNat (dt : UInt64) :
    (chord dt).toNat = 1024 - dt.toNat % halfLife.toNat * 1024 / halfLife.toNat := by
  have hquot : (dt % halfLife * 1024 / halfLife).toNat =
      dt.toNat % halfLife.toNat * 1024 / halfLife.toNat := by
    rw [UInt64.toNat_div, rem_mul_toNat]
  have hle : dt % halfLife * 1024 / halfLife ≤ 1024 := by
    rw [UInt64.le_iff_toNat_le, hquot]
    change _ ≤ 1024
    rw [halfLife_toNat]
    omega
  rw [chord, UInt64.toNat_sub_of_le _ _ hle, hquot]
  rfl

/-- The chord's factor, rounded down, lies at most one unit above the line. -/
theorem chord_toNat_mul_le (dt : UInt64) :
    (chord dt).toNat * halfLife.toNat + 1024 * (dt.toNat % halfLife.toNat) ≤
      1025 * halfLife.toNat := by
  rw [chord_toNat, halfLife_toNat]
  omega

theorem chord_toNat_le (dt : UInt64) : (chord dt).toNat ≤ 1024 := by
  rw [chord_toNat]
  exact Nat.sub_le _ _

theorem halved_mul_chord_toNat {last dt : UInt64} (hlast : last.toNat ≤ 2 ^ 32) :
    (halved last dt * chord dt).toNat = (halved last dt).toNat * (chord dt).toNat := by
  have hhalved := halved_toNat_le last dt
  have hprod : (halved last dt).toNat * (chord dt).toNat ≤ 2 ^ 32 * 1024 :=
    Nat.mul_le_mul (hhalved.trans hlast) (chord_toNat_le dt)
  rw [UInt64.toNat_mul]
  exact Nat.mod_eq_of_lt (hprod.trans_lt (by norm_num))

theorem decayFloor_toNat {last dt : UInt64} (hlast : last.toNat ≤ 2 ^ 32) :
    (decayFloor last dt).toNat = (halved last dt).toNat * (chord dt).toNat / 1024 := by
  rw [decayFloor, UInt64.toNat_shiftRight, halved_mul_chord_toNat hlast, Nat.shiftRight_eq_div_pow]
  rfl

theorem decayFloor_toNat_le {last dt : UInt64} (hlast : last.toNat ≤ 2 ^ 32) :
    (decayFloor last dt).toNat ≤ 2 ^ 32 := by
  have hprod : (halved last dt).toNat * (chord dt).toNat ≤ 2 ^ 32 * 1024 :=
    Nat.mul_le_mul ((halved_toNat_le last dt).trans hlast) (chord_toNat_le dt)
  rw [decayFloor_toNat hlast]
  omega

/-- The floor of a legal decay is at most a 1/512 above the utilization. -/
theorem decayFloor_le_of_legal {last cur dt : UInt64} (hlast : last.toNat ≤ 2 ^ 32)
    (hlegal : last.toNat ^ halfLife.toNat ≤ cur.toNat ^ halfLife.toNat * 2 ^ dt.toNat) :
    512 * (decayFloor last dt).toNat ≤ 513 * cur.toNat := by
  have hT : 0 < halfLife.toNat := by decide
  have hbound := mul_le_of_legal_decay hT hlegal
  have hhalved := halved_toNat_mul_le last dt
  have hchord := chord_toNat_mul_le dt
  have hrem : dt.toNat % halfLife.toNat < halfLife.toNat := Nat.mod_lt _ hT
  rw [decayFloor_toNat hlast]
  generalize halfLife.toNat = T at *
  generalize dt.toNat % T = r at *
  generalize (halved last dt).toNat = u at *
  generalize (chord dt).toNat = f at *
  have hu : u * T ≤ cur.toNat * (T + r) := by
    have hscaled : u * T * 2 ^ (dt.toNat / T) ≤ cur.toNat * (T + r) * 2 ^ (dt.toNat / T) := by
      calc u * T * 2 ^ (dt.toNat / T) = u * 2 ^ (dt.toNat / T) * T := by ring
        _ ≤ last.toNat * T := Nat.mul_le_mul_right _ hhalved
        _ ≤ cur.toNat * 2 ^ (dt.toNat / T) * (T + r) := hbound
        _ = cur.toNat * (T + r) * 2 ^ (dt.toNat / T) := by ring
    exact Nat.le_of_mul_le_mul_right hscaled (Nat.two_pow_pos _)
  have hline : (T + r) * (f * T) ≤ 1026 * T * T := by
    nlinarith
  have hprod : u * f * (T * T) ≤ 1026 * cur.toNat * (T * T) := by
    calc u * f * (T * T) = u * T * (f * T) := by ring
      _ ≤ cur.toNat * (T + r) * (f * T) := Nat.mul_le_mul_right _ hu
      _ = cur.toNat * ((T + r) * (f * T)) := by ring
      _ ≤ cur.toNat * (1026 * T * T) := Nat.mul_le_mul_left _ hline
      _ = 1026 * cur.toNat * (T * T) := by ring
  have hfloor : u * f ≤ 1026 * cur.toNat :=
    Nat.le_of_mul_le_mul_right hprod (Nat.mul_pos hT hT)
  omega

structure NoWrap (rq : Rq) (last : PeltObs) : Prop where
  util : rq.rtUtilAvg.toNat + rq.dlUtilAvg.toNat ≤ 2 ^ 32 →
    (observe rq).util.toNat = rq.rtUtilAvg.toNat + rq.dlUtilAvg.toNat
  elapsed : (rq.clockTask - last.clockTask).toNat = rq.clockTask.toNat - last.clockTask.toNat
  rem : ((rq.clockTask - last.clockTask) % halfLife * 1024).toNat =
    (rq.clockTask - last.clockTask).toNat % halfLife.toNat * 1024
  factor : (chord (rq.clockTask - last.clockTask)).toNat =
    1024 - (rq.clockTask - last.clockTask).toNat % halfLife.toNat * 1024 / halfLife.toNat
  product : (halved last.util (rq.clockTask - last.clockTask) *
      chord (rq.clockTask - last.clockTask)).toNat =
    (halved last.util (rq.clockTask - last.clockTask)).toNat *
      (chord (rq.clockTask - last.clockTask)).toNat
  slack : ((observe rq).util + 16 +
      decayFloor last.util (rq.clockTask - last.clockTask) / 16).toNat =
    (observe rq).util.toNat + 16 +
      (decayFloor last.util (rq.clockTask - last.clockTask)).toNat / 16

theorem slack_toNat {cur floor : UInt64} (hcur : cur.toNat ≤ 2 ^ 32)
    (hfloor : floor.toNat ≤ 2 ^ 32) :
    (cur + 16 + floor / 16).toNat = cur.toNat + 16 + floor.toNat / 16 := by
  have hsixteen : UInt64.toNat 16 = 16 := rfl
  rw [UInt64.toNat_add, UInt64.toNat_add, UInt64.toNat_div, hsixteen]
  omega

theorem noWrap {rq : Rq} {last : PeltObs} (hclock : last.clockTask < rq.clockTask)
    (hlast : last.util.toNat ≤ 2 ^ 32) (hcur : (observe rq).util.toNat ≤ 2 ^ 32) :
    NoWrap rq last where
  util hsum := by
    rw [observe, UInt64.toNat_add]
    exact Nat.mod_eq_of_lt (hsum.trans_lt (by norm_num))
  elapsed := UInt64.toNat_sub_of_le _ _ (UInt64.le_of_lt hclock)
  rem := rem_mul_toNat _
  factor := chord_toNat _
  product := halved_mul_chord_toNat hlast
  slack := slack_toNat hcur (decayFloor_toNat_le hlast)

/-- A CPU whose utilization at most halved every 32 ms of task-clock time since the last tick is
not accused, saturated or not, and the 64-bit arithmetic is exact. -/
theorem check_legal_decay {cpu : ℕ} {rq : Rq} {last : PeltObs}
    (hclock : last.clockTask < rq.clockTask) (hlast : last.util.toNat ≤ 2 ^ 32)
    (hcur : (observe rq).util.toNat ≤ 2 ^ 32)
    (hlegal : last.util.toNat ^ halfLife.toNat ≤
      (observe rq).util.toNat ^ halfLife.toNat * 2 ^ (rq.clockTask.toNat - last.clockTask.toNat)) :
    (check cpu rq last).1 = none ∧ NoWrap rq last := by
  have hwrap := noWrap hclock hlast hcur
  refine ⟨?_, hwrap⟩
  rw [← hwrap.elapsed] at hlegal
  have hfloor := decayFloor_le_of_legal hlast hlegal
  have hspared : ¬ (observe rq).util + 16 +
      decayFloor last.util (rq.clockTask - last.clockTask) / 16 <
        decayFloor last.util (rq.clockTask - last.clockTask) := by
    rw [UInt64.lt_iff_toNat_lt, hwrap.slack]
    omega
  simp only [check, verdict]
  split
  · exact if_neg hspared
  · rfl

theorem legal_decay_half {T dt last cur : ℕ} (hdt : dt = T) (hlast : last = cur * 2) :
    last ^ T ≤ cur ^ T * 2 ^ dt := by
  rw [hdt, hlast, mul_pow]

/-- A full signal that has lost exactly one half after 32 ms. -/
theorem check_legal_decay_one_half :
    (check 1 ⟨512, 0, 0, 0, 32000000⟩ ⟨1024, 0, true⟩).1 = none ∧
      NoWrap ⟨512, 0, 0, 0, 32000000⟩ ⟨1024, 0, true⟩ :=
  check_legal_decay (by decide) (by decide) (by decide)
    (legal_decay_half (by decide) (by decide))

/-- The rule fires on the same CPU down to a quarter after the same time. -/
example : (check 1 ⟨256, 0, 0, 0, 32000000⟩ ⟨1024, 0, true⟩).1 =
    some ⟨1, 1024, 256, 32000000, 512⟩ := by
  decide

end KStep.Pelt
