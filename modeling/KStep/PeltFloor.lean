import KStep.Pelt

/-!
# The decay floor over time

A signal that only decays should have a floor that only falls with the time elapsed. The line that
`check` draws within a half-life ends near zero where the next half-life starts at one half, so the
floor rises at every multiple of 32 ms, and a drop that is spared over a little less than a
half-life is reported over a whole one. Only a utilization of at most one is spared this.
-/

namespace KStep.Pelt

/-- The floor of an observation falls with time: what is spared over an interval is spared over a
longer one, and what is reported over an interval is reported over a shorter one. -/
structure FallsWithTime (last : PeltObs) : Prop where
  floor : ∀ dt₁ dt₂ : UInt64, 0 < dt₁ → dt₁ ≤ dt₂ →
    decayFloor last.util dt₂ ≤ decayFloor last.util dt₁
  spared : ∀ (cpu : ℕ) (rq : Rq) (c₁ c₂ : UInt64), last.clockTask < c₁ → c₁ ≤ c₂ →
    (check cpu { rq with clockTask := c₁ } last).1 = none →
      (check cpu { rq with clockTask := c₂ } last).1 = none
  reported : ∀ (cpu : ℕ) (rq : Rq) (c₁ c₂ : UInt64), last.clockTask < c₁ → c₁ ≤ c₂ →
    (check cpu { rq with clockTask := c₂ } last).1 ≠ none →
      (check cpu { rq with clockTask := c₁ } last).1 ≠ none

variable {last dt dt₁ dt₂ : UInt64}

theorem halved_toNat (last dt : UInt64) :
    (halved last dt).toNat = last.toNat / 2 ^ (dt.toNat / halfLife.toNat) := by
  rw [halved]
  split
  next hge =>
    have hshift : 64 ≤ dt.toNat / halfLife.toNat := by
      rw [UInt64.le_iff_toNat_le, UInt64.toNat_div] at hge
      exact hge
    have hpow : 2 ^ 64 ≤ 2 ^ (dt.toNat / halfLife.toNat) :=
      Nat.pow_le_pow_right (by norm_num) hshift
    exact (Nat.div_eq_of_lt (last.toNat_lt.trans_le hpow)).symm
  next hlt =>
    have hshift : dt.toNat / halfLife.toNat < 64 := by
      rw [UInt64.le_iff_toNat_le, UInt64.toNat_div] at hlt
      exact Nat.lt_of_not_le hlt
    rw [UInt64.toNat_shiftRight, UInt64.toNat_div, Nat.mod_eq_of_lt hshift,
      Nat.shiftRight_eq_div_pow]

theorem decayFloor_toNat_mod (last dt : UInt64) :
    (decayFloor last dt).toNat =
      (halved last dt).toNat * (chord dt).toNat % 2 ^ 64 / 1024 := by
  rw [decayFloor, UInt64.toNat_shiftRight, UInt64.toNat_mul, Nat.shiftRight_eq_div_pow]
  rfl

/-- A utilization of at most one has lost it all after a half-life. -/
theorem decayFloor_of_le_one (hlast : last.toNat ≤ 1) :
    (decayFloor last dt).toNat = if dt.toNat < 31250 then last.toNat else 0 := by
  rw [decayFloor_toNat_mod, halved_toNat, chord_toNat, halfLife_toNat]
  split_ifs with hdt
  · have hdiv : dt.toNat / 32000000 = 0 := by omega
    have hrem : dt.toNat % 32000000 * 1024 / 32000000 = 0 := by omega
    rw [hdiv, hrem, pow_zero, Nat.div_one]
    omega
  · by_cases hhalf : dt.toNat < 32000000
    · have hdiv : dt.toNat / 32000000 = 0 := by omega
      rw [hdiv, pow_zero, Nat.div_one]
      rcases Nat.le_one_iff_eq_zero_or_eq_one.mp hlast with hzero | hone
      · rw [hzero, Nat.zero_mul]
        rfl
      · rw [hone, Nat.one_mul]
        omega
    · have hpow : 2 ^ 1 ≤ 2 ^ (dt.toNat / 32000000) :=
        Nat.pow_le_pow_right (by norm_num) (by omega)
      have hlost : last.toNat / 2 ^ (dt.toNat / 32000000) = 0 := Nat.div_eq_of_lt (by omega)
      rw [hlost, Nat.zero_mul]
      rfl

theorem decayFloor_antitone_of_le_one (hlast : last.toNat ≤ 1) (hdt : dt₁ ≤ dt₂) :
    decayFloor last dt₂ ≤ decayFloor last dt₁ := by
  rw [UInt64.le_iff_toNat_le] at hdt ⊢
  rw [decayFloor_of_le_one hlast, decayFloor_of_le_one hlast]
  split_ifs <;> omega

theorem elapsed_toNat {n : ℕ} (hn : n < 2 ^ 64) : (UInt64.ofNat n).toNat = n :=
  UInt64.toNat_ofNat_of_lt' hn

/-- One nanosecond before a half-life is over, the floor is a 1/1024 of what it started from. -/
theorem decayFloor_before_half_life {j : ℕ} (hj : j ≤ 10) :
    (decayFloor last (UInt64.ofNat (j * 32000000 + 31999999))).toNat =
      last.toNat / 2 ^ j / 1024 := by
  have hdt : (UInt64.ofNat (j * 32000000 + 31999999)).toNat = j * 32000000 + 31999999 :=
    elapsed_toNat (by omega)
  have hquot : (j * 32000000 + 31999999) / 32000000 = j := by omega
  have hrem : (j * 32000000 + 31999999) % 32000000 = 31999999 := by omega
  have hlt : last.toNat / 2 ^ j < 2 ^ 64 := (Nat.div_le_self _ _).trans_lt last.toNat_lt
  rw [decayFloor_toNat_mod, halved_toNat, chord_toNat, halfLife_toNat, hdt, hquot, hrem,
    show 1024 - 31999999 * 1024 / 32000000 = 1 by norm_num, Nat.mul_one, Nat.mod_eq_of_lt hlt]

/-- When it is over, the floor is one half. -/
theorem decayFloor_at_half_life {j : ℕ} (hj : j ≤ 10) (hlast : last.toNat / 2 ^ j < 2 ^ 55) :
    (decayFloor last (UInt64.ofNat ((j + 1) * 32000000))).toNat = last.toNat / 2 ^ j / 2 := by
  have hdt : (UInt64.ofNat ((j + 1) * 32000000)).toNat = (j + 1) * 32000000 :=
    elapsed_toNat (by omega)
  rw [decayFloor_toNat_mod, halved_toNat, chord_toNat, halfLife_toNat, hdt, Nat.mul_div_cancel _
    (by norm_num), Nat.mul_mod_left, pow_succ, ← Nat.div_div_eq_div_mul]
  omega

/-- A utilization of two or more has a half-life at whose end the floor rises. -/
theorem exists_decayFloor_lt (hlast : 2 ≤ last.toNat) :
    ∃ dt₁ dt₂ : UInt64, 0 < dt₁ ∧ dt₁ ≤ dt₂ ∧ decayFloor last dt₁ < decayFloor last dt₂ := by
  obtain ⟨j, hj, hlow, hhigh⟩ : ∃ j, j ≤ 10 ∧ 2 ≤ last.toNat / 2 ^ j ∧
      last.toNat / 2 ^ j < 2 ^ 55 := by
    have hlt := last.toNat_lt
    by_cases hsmall : last.toNat < 2 ^ 55
    · exact ⟨0, by norm_num, by simpa using hlast, by simpa using hsmall⟩
    · exact ⟨10, le_rfl, by omega, by omega⟩
  have hdt₁ : (UInt64.ofNat (j * 32000000 + 31999999)).toNat = j * 32000000 + 31999999 :=
    elapsed_toNat (by omega)
  have hdt₂ : (UInt64.ofNat ((j + 1) * 32000000)).toNat = (j + 1) * 32000000 :=
    elapsed_toNat (by omega)
  refine ⟨UInt64.ofNat (j * 32000000 + 31999999), UInt64.ofNat ((j + 1) * 32000000), ?_, ?_, ?_⟩
  · rw [UInt64.lt_iff_toNat_lt, hdt₁]
    exact Nat.succ_pos _
  · rw [UInt64.le_iff_toNat_le, hdt₁, hdt₂]
    omega
  · rw [UInt64.lt_iff_toNat_lt, decayFloor_before_half_life hj, decayFloor_at_half_life hj hhigh]
    omega

/-- A lower floor spares whatever a higher one spares, even where the slack wraps. -/
theorem spared_of_floor_le {cur floor₁ floor₂ : UInt64} (hfloor : floor₁.toNat < 2 ^ 54)
    (hle : floor₂ ≤ floor₁) (hspared : ¬ cur + 16 + floor₁ / 16 < floor₁) :
    ¬ cur + 16 + floor₂ / 16 < floor₂ := by
  have hsixteen : UInt64.toNat 16 = 16 := rfl
  rw [UInt64.le_iff_toNat_le] at hle
  rw [UInt64.lt_iff_toNat_lt, UInt64.toNat_add, UInt64.toNat_div, hsixteen] at hspared ⊢
  have hlt := (cur + 16).toNat_lt
  generalize (cur + 16).toNat = slack at *
  by_cases hwrap : slack + floor₁.toNat / 16 < 2 ^ 64
  · rw [Nat.mod_eq_of_lt hwrap] at hspared
    rw [Nat.mod_eq_of_lt (by omega)]
    omega
  · rw [Nat.mod_eq_sub_mod (Nat.le_of_not_lt hwrap), Nat.mod_eq_of_lt (by omega)] at hspared
    omega

theorem check_eq_none_iff {cpu : ℕ} {rq : Rq} {last : PeltObs}
    (hclock : last.clockTask < rq.clockTask) :
    (check cpu rq last).1 = none ↔ last.saturated = true →
      ¬ (observe rq).util + 16 + decayFloor last.util (rq.clockTask - last.clockTask) / 16 <
        decayFloor last.util (rq.clockTask - last.clockTask) := by
  have hobserved : (observe rq).clockTask = rq.clockTask := rfl
  simp only [check, verdict, hobserved, hclock, decide_true, Bool.and_true]
  split
  next hsat => simp [hsat]
  next hsat => simp [hsat]

theorem check_spared_of_le_one {cpu : ℕ} {rq : Rq} {last : PeltObs} {c₁ c₂ : UInt64}
    (hlast : last.util.toNat ≤ 1) (hc₁ : last.clockTask < c₁) (hc₂ : c₁ ≤ c₂)
    (hspared : (check cpu { rq with clockTask := c₁ } last).1 = none) :
    (check cpu { rq with clockTask := c₂ } last).1 = none := by
  rw [check_eq_none_iff (by exact hc₁)] at hspared
  rw [check_eq_none_iff (by exact UInt64.lt_of_lt_of_le hc₁ hc₂)]
  intro hsat
  have hdt : c₁ - last.clockTask ≤ c₂ - last.clockTask := by
    have hclock := UInt64.le_of_lt hc₁
    rw [UInt64.le_iff_toNat_le, UInt64.toNat_sub_of_le _ _ hclock,
      UInt64.toNat_sub_of_le _ _ (UInt64.le_trans hclock hc₂)]
    exact Nat.sub_le_sub_right (UInt64.le_iff_toNat_le.mp hc₂) _
  have hfloor : (decayFloor last.util (c₁ - last.clockTask)).toNat < 2 ^ 54 := by
    rw [decayFloor_of_le_one hlast]
    split_ifs <;> omega
  exact spared_of_floor_le hfloor (decayFloor_antitone_of_le_one hlast hdt) (hspared hsat)

/-- The floor of an observation falls with time exactly when its utilization is at most one. -/
theorem fallsWithTime_iff (last : PeltObs) : FallsWithTime last ↔ last.util ≤ 1 := by
  have hone : last.util ≤ 1 ↔ last.util.toNat ≤ 1 := UInt64.le_iff_toNat_le
  rw [hone]
  constructor
  · intro hfalls
    by_contra hlarge
    obtain ⟨dt₁, dt₂, hpos, hle, hrise⟩ := exists_decayFloor_lt (Nat.lt_of_not_le hlarge)
    exact absurd (hfalls.floor dt₁ dt₂ hpos hle) (UInt64.not_le.mpr hrise)
  · intro hlast
    exact
      { floor := fun _ _ _ hle => decayFloor_antitone_of_le_one hlast hle
        spared := fun _ _ _ _ hc₁ hc₂ => check_spared_of_le_one hlast hc₁ hc₂
        reported := fun _ _ _ _ hc₁ hc₂ hreport hspared =>
          hreport (check_spared_of_le_one hlast hc₁ hc₂ hspared) }

/-- A full signal that collapsed is spared one nanosecond before the half-life is over, where the
floor is 1, and reported at its end, where the floor is 512. -/
theorem not_fallsWithTime :
    decayFloor 1024 31999999 = 1 ∧ decayFloor 1024 32000000 = 512 ∧
      (check 1 ⟨0, 0, 0, 0, 31999999⟩ ⟨1024, 0, true⟩).1 = none ∧
      (check 1 ⟨0, 0, 0, 0, 32000000⟩ ⟨1024, 0, true⟩).1 ≠ none ∧
      ¬ FallsWithTime ⟨1024, 0, true⟩ := by
  have hspared : (check 1 ⟨0, 0, 0, 0, 31999999⟩ ⟨1024, 0, true⟩).1 = none := by decide
  have hreported : (check 1 ⟨0, 0, 0, 0, 32000000⟩ ⟨1024, 0, true⟩).1 ≠ none := by decide
  refine ⟨by decide, by decide, hspared, hreported, fun hfalls => ?_⟩
  exact hreported
    (hfalls.spared 1 ⟨0, 0, 0, 0, 0⟩ 31999999 32000000 (by decide) (by decide) hspared)

end KStep.Pelt
