/-
After how many TTIs the SINR is renewed.

The UE and its two physical layers compute this with the same formula from the speed the
configuration gives in km/h.  The physical layer turns it into m/s first and the UE does
not, so the UE takes the channel to change 3.6 times as fast.  The two periods are equal
where the clamps hide the factor.
-/
import NetworkEmulator.Model.PhyLayer

namespace NetworkEmulator.Channel

/-- The period for a channel that stays coherent for `u` TTIs, when CQI and rank ask for a
renewal after `m`. -/
def clampPeriod (m : ℤ) (u : ℚ) : ℤ := if (m : ℚ) < u then m else max 1 ⌊u⌋

/-- For how many TTIs the channel stays coherent at a Doppler shift. -/
def coherentTtis (dopplerF : ℚ) : ℚ := 0.423 / dopplerF / 0.001

theorem updateRates_of_pos {dopplerF : ℚ} (hpos : 0 < dopplerF) (cqiP riP : ℤ) :
    (updateRates dopplerF cqiP riP).2 = clampPeriod (min cqiP riP) (coherentTtis dopplerF) := by
  unfold updateRates
  rw [if_pos hpos]
  rfl

theorem updateRates_of_le {dopplerF : ℚ} (hle : dopplerF ≤ 0) (cqiP riP : ℤ) :
    (updateRates dopplerF cqiP riP).2 = min cqiP riP := by
  unfold updateRates
  rw [if_neg (not_lt.mpr hle)]

theorem coherentTtis_pos {dopplerF : ℚ} (hpos : 0 < dopplerF) : 0 < coherentTtis dopplerF := by
  unfold coherentTtis
  positivity

/-- A Doppler shift 3.6 times as small leaves the channel coherent 3.6 times as long. -/
theorem coherentTtis_div (dopplerF : ℚ) :
    coherentTtis (dopplerF / 3.6) = 3.6 * coherentTtis dopplerF := by
  unfold coherentTtis
  by_cases hzero : dopplerF = 0
  · rw [hzero]
    norm_num
  · field_simp

/-! ### The clamps -/

/-- The period is at least one TTI and at most the one asked for. -/
theorem clampPeriod_mem {m : ℤ} (hm : 1 ≤ m) (u : ℚ) :
    1 ≤ clampPeriod m u ∧ clampPeriod m u ≤ m := by
  unfold clampPeriod
  by_cases hlt : (m : ℚ) < u
  · rw [if_pos hlt]
    omega
  · rw [if_neg hlt]
    have hfloor : ⌊u⌋ ≤ m := by
      have hle : (⌊u⌋ : ℚ) ≤ m := (Int.floor_le u).trans (not_lt.mp hlt)
      exact_mod_cast hle
    omega

theorem clampPeriod_of_le {m : ℤ} (hm : 1 ≤ m) {u : ℚ} (hle : (m : ℚ) ≤ u) :
    clampPeriod m u = m := by
  unfold clampPeriod
  by_cases hlt : (m : ℚ) < u
  · exact if_pos hlt
  · rw [if_neg hlt, show u = (m : ℚ) from le_antisymm (not_lt.mp hlt) hle, Int.floor_intCast]
    omega

theorem clampPeriod_of_gt {m : ℤ} {u : ℚ} (hlt : u < m) : clampPeriod m u = max 1 ⌊u⌋ :=
  if_neg (not_lt.mpr hlt.le)

/-- **The clamps hide a factor of 3.6** when there is one period to choose from, when the
shorter coherence time is long enough, or when the longer one is below two TTIs. -/
theorem clampPeriod_eq_iff {m : ℤ} (hm : 1 ≤ m) {u : ℚ} (hu : 0 < u) :
    clampPeriod m u = clampPeriod m (3.6 * u) ↔ m = 1 ∨ (m : ℚ) ≤ u ∨ 3.6 * u < 2 := by
  by_cases hle : (m : ℚ) ≤ u
  · rw [clampPeriod_of_le hm hle, clampPeriod_of_le hm (by linarith)]
    exact iff_of_true rfl (Or.inr (Or.inl hle))
  · have hlt : u < m := not_le.mp hle
    have hfloor : ⌊u⌋ < m := Int.floor_lt.mpr hlt
    rw [clampPeriod_of_gt hlt, or_iff_right hle]
    by_cases hlong : (m : ℚ) ≤ 3.6 * u
    · -- the longer one is cut to `m`, the shorter one is not
      rw [clampPeriod_of_le hm hlong]
      constructor
      · intro heq
        left
        omega
      · intro h
        rcases h with hone | hshort
        · omega
        · have htwo : (m : ℚ) < ((2 : ℤ) : ℚ) := lt_of_le_of_lt hlong (by exact_mod_cast hshort)
          have hone : m < 2 := by exact_mod_cast htwo
          omega
    · -- neither is cut
      have hlt' : 3.6 * u < m := not_le.mp hlong
      rw [clampPeriod_of_gt hlt']
      by_cases hshort : 3.6 * u < 2
      · have hlow : ⌊u⌋ < 2 := Int.floor_lt.mpr (by push_cast; linarith)
        have hlow' : ⌊3.6 * u⌋ < 2 := Int.floor_lt.mpr (by push_cast; linarith)
        refine iff_of_true ?_ (Or.inr hshort)
        omega
      · have htwo : 2 ≤ ⌊3.6 * u⌋ := Int.le_floor.mpr (by push_cast; linarith)
        refine iff_of_false (fun heq => ?_) ?_
        · -- their floors would be at least two and the same
          have hsame : ⌊u⌋ = ⌊3.6 * u⌋ := by omega
          have hge : (2 : ℚ) ≤ u := by
            have hfl := Int.floor_le u
            have hcast : (2 : ℚ) ≤ ⌊u⌋ := by exact_mod_cast hsame ▸ htwo
            linarith
          have hbelow := Int.floor_le u
          have hnext := Int.lt_floor_add_one (3.6 * u)
          rw [← hsame] at hnext
          linarith
        · intro h
          rcases h with rfl | h
          · push_cast at hlt'
            linarith
          · exact hshort h

/-! ### The UE and its layers -/

namespace UePhy

/-- The UE with the period it computes for itself. -/
def withPeriod (u : UePhy) : UePhy :=
  u.initPhyUpdateRates u.phyDopplerF u.phyCqiPeriod u.phyRiPeriod

/-- The UE and its two layers have one period. -/
def PeriodsAgree (u : UePhy) : Prop :=
  u.withPeriod.phySinrPeriod = u.phyDl.sinrPeriod ∧
    u.withPeriod.phySinrPeriod = u.phyUl.sinrPeriod

/-- The period is between 1 and the periods of CQI and rank, in the UE and in its layers. -/
def PeriodsInRange (u : UePhy) : Prop :=
  ∀ period ∈ [u.withPeriod.phySinrPeriod, u.phyDl.sinrPeriod, u.phyUl.sinrPeriod],
    1 ≤ period ∧ period ≤ min u.phyCqiPeriod u.phyRiPeriod

/-- The Doppler shift in a layer is 3.6 times as small as in the UE. -/
theorem sinrPeriod_make (tx : Direction) (mcsTables : Bool) (c : UePhyConfig) (enb : PhyEnbConfig) :
    (PhyLayer.make tx mcsTables c.getPhyConfig enb).sinrPeriod
      = (updateRates ((make mcsTables c enb).phyDopplerF / 3.6) c.cqiPeriod c.riPeriod).2 := by
  have hdoppler : enb.frequency * (c.getPhyConfig.maxSpeed * 1000 / 3600) / lightspeed
      = (make mcsTables c enb).phyDopplerF / 3.6 := by
    simp only [make]
    ring
  rw [← hdoppler]
  unfold PhyLayer.make
  cases mcsTables <;> rfl

theorem updateRates_mem (dopplerF : ℚ) {cqiP riP : ℤ} (hcqi : 0 < cqiP) (hri : 0 < riP) :
    1 ≤ (updateRates dopplerF cqiP riP).2 ∧ (updateRates dopplerF cqiP riP).2 ≤ min cqiP riP := by
  have hm : 1 ≤ min cqiP riP := by omega
  by_cases hpos : 0 < dopplerF
  · rw [updateRates_of_pos hpos]
    exact clampPeriod_mem hm _
  · rw [updateRates_of_le (not_lt.mp hpos)]
    exact ⟨hm, le_rfl⟩

/-- **UE and layers agree on the period exactly when the UE does not move, or there is one
period to choose from, or the coherence time the UE computes is not below it, or the one of
the layers is below two TTIs.**  All periods are within their range. -/
theorem periods_agree_iff (mcsTables : Bool) (c : UePhyConfig) (enb : PhyEnbConfig)
    (hcqi : 0 < c.cqiPeriod) (hri : 0 < c.riPeriod) :
    ((make mcsTables c enb).PeriodsAgree ↔
      enb.frequency * (c.speed + c.speedVar) ≤ 0 ∨ min c.cqiPeriod c.riPeriod = 1 ∨
        (min c.cqiPeriod c.riPeriod : ℤ) ≤ coherentTtis (make mcsTables c enb).phyDopplerF ∨
        3.6 * coherentTtis (make mcsTables c enb).phyDopplerF < 2) ∧
    (make mcsTables c enb).PeriodsInRange := by
  have hm : 1 ≤ min c.cqiPeriod c.riPeriod := by omega
  have hue : (make mcsTables c enb).withPeriod.phySinrPeriod
      = (updateRates (make mcsTables c enb).phyDopplerF c.cqiPeriod c.riPeriod).2 := rfl
  have hdl := sinrPeriod_make .dl mcsTables c enb
  have hul := sinrPeriod_make .ul mcsTables c enb
  constructor
  · have hagree : (make mcsTables c enb).PeriodsAgree ↔
        (updateRates (make mcsTables c enb).phyDopplerF c.cqiPeriod c.riPeriod).2
          = (updateRates ((make mcsTables c enb).phyDopplerF / 3.6) c.cqiPeriod c.riPeriod).2 := by
      unfold PeriodsAgree
      rw [hue]
      constructor
      · exact fun h => h.1.trans hdl
      · exact fun h => ⟨h.trans hdl.symm, h.trans hul.symm⟩
    have hsign : (make mcsTables c enb).phyDopplerF ≤ 0
        ↔ enb.frequency * (c.speed + c.speedVar) ≤ 0 := by
      show enb.frequency * (c.speed + c.speedVar) / lightspeed ≤ 0 ↔ _
      rw [div_le_iff₀ (by norm_num [lightspeed]), zero_mul]
    rw [hagree, ← hsign]
    by_cases hpos : 0 < (make mcsTables c enb).phyDopplerF
    · rw [or_iff_right (not_le.mpr hpos), updateRates_of_pos hpos,
        updateRates_of_pos (by positivity), coherentTtis_div]
      exact clampPeriod_eq_iff hm (coherentTtis_pos hpos)
    · have hle := not_lt.mp hpos
      have hslow := div_nonpos_of_nonpos_of_nonneg hle (by norm_num : (0 : ℚ) ≤ 3.6)
      rw [updateRates_of_le hle, updateRates_of_le hslow]
      exact iff_of_true rfl (Or.inl hle)
  · intro period hperiod
    simp only [List.mem_cons, List.not_mem_nil, or_false] at hperiod
    rcases hperiod with rfl | rfl | rfl
    · exact updateRates_mem _ hcqi hri
    · have hmem := updateRates_mem ((make mcsTables c enb).phyDopplerF / 3.6) hcqi hri
      rw [← hdl] at hmem
      exact hmem
    · have hmem := updateRates_mem ((make mcsTables c enb).phyDopplerF / 3.6) hcqi hri
      rw [← hul] at hmem
      exact hmem

/-- At 2 GHz and 3 km/h, with a period of 5, the channel is coherent for longer either way. -/
theorem periods_agree_slow :
    (0 : ℤ) < 5 ∧ (make false ⟨3, 0, 5, 5, 2⟩ ⟨.qam64, 2000000000, 12, 2⟩).PeriodsAgree ∧
      (make false ⟨3, 0, 5, 5, 2⟩ ⟨.qam64, 2000000000, 12, 2⟩).PeriodsInRange := by
  have hall := periods_agree_iff false ⟨3, 0, 5, 5, 2⟩ ⟨.qam64, 2000000000, 12, 2⟩
    (by decide) (by decide)
  refine ⟨by decide, hall.1.mpr (Or.inr (Or.inr (Or.inl ?_))), hall.2⟩
  norm_num [coherentTtis, make, UePhyConfig.getPhyConfig, lightspeed]

/-- At 2 GHz and 30 km/h, with a period of 5, the UE renews the fading every 2 TTIs and its
layers the SINR every 5. -/
theorem periods_disagree :
    (make false ⟨30, 0, 5, 5, 2⟩ ⟨.qam64, 2000000000, 12, 2⟩).withPeriod.phySinrPeriod = 2 ∧
      (make false ⟨30, 0, 5, 5, 2⟩ ⟨.qam64, 2000000000, 12, 2⟩).phyDl.sinrPeriod = 5 ∧
      ¬(make false ⟨30, 0, 5, 5, 2⟩ ⟨.qam64, 2000000000, 12, 2⟩).PeriodsAgree := by
  unfold PeriodsAgree
  decide +kernel

end UePhy

end NetworkEmulator.Channel
