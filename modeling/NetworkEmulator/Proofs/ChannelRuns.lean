/-
Runs of `estimate_channel_state` of `src/phy_layer/phy_layer.cpp`.

A call renews the SINR, the CQI and the rank when their periods have passed, and leaves them
otherwise.  `Called` says what one call does: each of the three is either that of before or
a function of what the call is given and of the values it finds.  From it come the rates and
the metrics, which are those of the scheduler's own model of the layer, and over a run the
three snapshots that the values in use go back to.

The loop over the RBGs renews SINR and CQI together, RBG by RBG.  `Visited` is what it has
done after `k` of them; the values of an RBG are not written again, so what was found for it
holds at the end.
-/
import NetworkEmulator.Library.Periods
import NetworkEmulator.Library.Simulation
import NetworkEmulator.Model.ChannelState
import NetworkEmulator.Proofs.Scheduling

namespace NetworkEmulator.Emulation

open Runs

namespace PhyLayer

variable {K : Type} (M : LogMath)

/-! ### What an RBG is given -/

/-- The CQI, the MCS and the efficiency of an RBG. -/
structure Quality where
  cqi : ℤ
  mcs : ℤ
  eff : ℚ
  deriving DecidableEq, Repr

/-- What `channel_q_tables` or `channel_q_efficiency` makes of a SINR. -/
def quality (p : PhyLayer K) (db linear : ℚ) : Option Quality :=
  if p.mcsTables then
    (p.getMcsIndex db).map fun mcs =>
      if 0 ≤ mcs then
        ⟨p.estimateCqiFromSe (p.estimateEffFromMcs mcs), mcs, p.estimateEffFromMcs mcs⟩
      else ⟨0, mcs, 0⟩
  else
    let se := p.estimateEffFromSinr M linear
    if 0 < p.estimateCqiFromSe se then
      some ⟨p.estimateCqiFromSe se, (p.estimateMcsFromSe se).1, (p.estimateMcsFromSe se).2⟩
    else some ⟨p.estimateCqiFromSe se, 0, 0⟩

/-- What is in use for RBG `f`. -/
def qualityAt (p : PhyLayer K) (f : ℕ) : Quality := ⟨p.cqiV f, p.mcsV f, p.effV f⟩

/-- The SINR `sinr_power_model` finds, by the fading. -/
def sinrOf (p : PhyLayer K) (x : ChannelArgs) (fading : ℚ) : ℚ :=
  ({ p with stochastics := true, rayleigh := fun _ => fading }.sinrPowerModel M x.distance
    (p.computeLosses x.distance) x.macroFading).1

/-- The SINR of the `k`-th block of RBGs, from the `k`-th fading still to come. -/
def blockSinr (p : PhyLayer K) (x : ChannelArgs) (k : ℕ) : ℚ :=
  p.sinrOf M x (if p.stochastics = true then p.rayleigh k else 0)

/-- The RSRP that goes with a SINR. -/
def rsrpOf (p : PhyLayer K) (db : ℚ) : ℚ :=
  db + p.noiseInterf - 10 * M.log10 p.nRbs - 10 * M.log10 p.nScRb + p.powerBoost

/-- How many blocks of RBGs start below RBG `k`. -/
def started (p : PhyLayer K) (k : ℕ) : ℕ := (k + p.sinrStep.toNat - 1) / p.sinrStep.toNat

/-- `p`, with what the loop over the RBGs writes taken from `q`. -/
def withLoop (p q : PhyLayer K) : PhyLayer K :=
  { p with
    dbSinrS := q.dbSinrS, cqiV := q.cqiV, mcsV := q.mcsV, effV := q.effV
    metricI := q.metricI, tpV := q.tpV, metricV := q.metricV
    pathloss := q.pathloss, dbSinrV := q.dbSinrV, lSinrV := q.lSinrV, rsrpV := q.rsrpV
    rsrpS := q.rsrpS, cqiS := q.cqiS, mcsS := q.mcsS, effS := q.effS, rayleigh := q.rayleigh }

/-! ### One RBG -/

variable {M} {p q r : PhyLayer K} {x : ChannelArgs} {f k : ℕ} {us uc : Bool}

/-- Loops one after the other. -/
theorem withLoop_trans (h : q = p.withLoop q) (h' : r = q.withLoop r) : r = p.withLoop r := by
  rw [h] at h'
  exact h'

theorem sinrPowerModel_fst (p : PhyLayer K) (x : ChannelArgs) :
    (p.sinrPowerModel M x.distance (p.computeLosses x.distance) x.macroFading).1 =
      p.blockSinr M x 0 := by
  rw [blockSinr, sinrOf, sinrPowerModel, sinrPowerModel]
  rfl

theorem sinrPowerModel_snd (d l mf : ℚ) : (p.sinrPowerModel M d l mf).2 =
    { p with rayleigh := fun i => p.rayleigh (i + if p.stochastics then 1 else 0) } := by
  rw [sinrPowerModel]
  by_cases hs : p.stochastics = true
  · simp only [if_pos hs]
    rfl
  · simp only [if_neg hs]
    rfl

/-- What `estimate_sinr` finds for RBG `f`. -/
def nextSinr (M : LogMath) (p : PhyLayer K) (x : ChannelArgs) (f : ℕ) : ℚ :=
  if f % p.sinrStep = 0 then p.blockSinr M x 0 else p.dbSinrV (f - 1)

theorem dbSinrOf_eq (p : PhyLayer K) (x : ChannelArgs) (f : ℕ) :
    p.dbSinrOf M f x.distance x.macroFading = (p.nextSinr M x f, { p with
      rayleigh := fun i =>
        p.rayleigh (i + if f % p.sinrStep = 0 ∧ p.stochastics = true then 1 else 0) }) := by
  rw [dbSinrOf, nextSinr]
  by_cases hf : f % p.sinrStep = 0
  · rw [if_pos hf, if_pos hf]
    refine Prod.ext (sinrPowerModel_fst p x) ?_
    rw [sinrPowerModel_snd]
    simp only [hf, true_and]
  · rw [if_neg hf, if_neg hf]
    simp only [hf, false_and, if_false]
    rfl

theorem estimateSinr_eq (p : PhyLayer K) (x : ChannelArgs) (f : ℕ) :
    p.estimateSinr M x.distance f x.macroFading =
      { p with
        pathloss := p.computeLosses x.distance
        dbSinrV := Function.update p.dbSinrV f (p.nextSinr M x f)
        dbSinrS := p.dbSinrS + p.nextSinr M x f
        rsrpV := Function.update p.rsrpV f (p.rsrpOf M (p.nextSinr M x f))
        rsrpS := p.rsrpS + p.rsrpOf M (p.nextSinr M x f)
        lSinrV := Function.update p.lSinrV f (M.pow10 (p.nextSinr M x f / 10))
        rayleigh := fun i =>
          p.rayleigh (i + if f % p.sinrStep = 0 ∧ p.stochastics = true then 1 else 0) } := by
  rw [estimateSinr, dbSinrOf_eq]
  rfl

/-- `channel_q_tables` and `channel_q_efficiency` look at the SINR and write what they make of
it. -/
theorem channelQ_eq (p : PhyLayer K) (f : ℕ) : p.channelQ M f =
    (p.quality M (p.dbSinrV f) (p.lSinrV f)).map fun v =>
      { p with toPhyLayer := p.toPhyLayer.setChannelQ f v.cqi v.mcs v.eff } := by
  rw [channelQ, quality]
  cases p.mcsTables with
  | true =>
      simp only [if_true, Channel.PhyLayer.channelQTables, Option.map_map]
      refine congrArg (Option.map · _) (funext fun mcs => ?_)
      by_cases hmcs : 0 ≤ mcs
      · simp [hmcs]
      · simp [hmcs]
  | false =>
      simp only [Bool.false_eq_true, if_false, Channel.PhyLayer.channelQEfficiency]
      split
      · rfl
      · rfl

theorem estimateSinr_withLoop (p : PhyLayer K) (x : ChannelArgs) (f : ℕ) :
    p.estimateSinr M x.distance f x.macroFading =
      p.withLoop (p.estimateSinr M x.distance f x.macroFading) := by
  rw [estimateSinr_eq]
  rfl

/-- What a renewed CQI makes of the layer. -/
theorem estimateChannelQ_eq_some (h : p.estimateChannelQ M f = some r) :
    ∃ v, p.quality M (p.dbSinrV f) (p.lSinrV f) = some v ∧
      r = { p with
        toPhyLayer := p.toPhyLayer.setChannelQ f v.cqi v.mcs v.eff
        mcsS := p.mcsS + v.mcs, cqiS := p.cqiS + v.cqi, effS := p.effS + v.eff } := by
  rw [estimateChannelQ, channelQ_eq, Option.map_map, Option.map_eq_some_iff] at h
  obtain ⟨v, hv, rfl⟩ := h
  refine ⟨v, hv, ?_⟩
  simp only [Function.comp_apply, Channel.PhyLayer.setChannelQ, Function.update_self]

theorem estimateMetric_eq (m : PhyMetrics ℚ K) (f : ℕ) :
    m.estimateMetric f = { m with
      metricI := (m.estimateMetric f).metricI, metricV := (m.estimateMetric f).metricV } := by
  rw [PhyMetrics.estimateMetric]
  by_cases hrr : m.metricH.isRr = true
  · simp only [if_pos hrr]
  · simp only [if_neg hrr]

theorem estimateRate_withLoop (p : PhyLayer K) (f : ℕ) :
    p.estimateRate f = p.withLoop (p.estimateRate f) := by
  rw [estimateRate, estimateMetric_eq]
  rfl

/-! ### The RBGs in turn -/

/-- Writing at `k` leaves what is below. -/
private theorem update_below {α : Type} {v : ℕ → α} {a : α} (hf : f < k) :
    Function.update v k a f = v f := Function.update_of_ne hf.ne ..

private theorem sum_update_succ {α : Type} [AddCommMonoid α] (v : ℕ → α) (k : ℕ) (a : α) :
    ∑ f ∈ Finset.range (k + 1), Function.update v k a f = ∑ f ∈ Finset.range k, v f + a := by
  rw [Finset.sum_range_succ, Function.update_self]
  refine congrArg (· + a) (Finset.sum_congr rfl fun f hf => ?_)
  exact update_below (Finset.mem_range.mp hf)

/-- What the loop has done to the SINR after `k` RBGs, when it is renewed. -/
structure SinrVisited (M : LogMath) (x : ChannelArgs) (p : PhyLayer K) (k : ℕ)
    (q : PhyLayer K) : Prop where
  frame : q = p.withLoop q
  db : 0 < p.sinrStep → ∀ f < k, q.dbSinrV f = p.blockSinr M x (f / p.sinrStep.toNat)
  linear : ∀ f < k, q.lSinrV f = M.pow10 (q.dbSinrV f / 10)
  rsrp : ∀ f < k, q.rsrpV f = p.rsrpOf M (q.dbSinrV f)
  dbSum : q.dbSinrS = p.dbSinrS + ∑ f ∈ Finset.range k, q.dbSinrV f
  rsrpSum : q.rsrpS = p.rsrpS + ∑ f ∈ Finset.range k, q.rsrpV f
  rayleigh : 0 < p.sinrStep → q.rayleigh =
    fun i => p.rayleigh (i + if p.stochastics = true then p.started k else 0)

theorem started_zero (hstep : 0 < p.sinrStep) : p.started 0 = 0 :=
  Nat.div_eq_of_lt (by omega)

/-- A block starts at the multiples of the step. -/
theorem started_succ (hstep : 0 < p.sinrStep) (k : ℕ) :
    p.started (k + 1) = p.started k + if k % p.sinrStep.toNat = 0 then 1 else 0 := by
  obtain ⟨n, hn⟩ := Nat.exists_eq_add_of_lt (Int.lt_toNat.mpr hstep : 0 < p.sinrStep.toNat)
  rw [started, started, hn]
  have hk : k + 1 + (0 + n + 1) - 1 = k + (0 + n + 1) - 1 + 1 := by omega
  have hdvd : (0 + n + 1) ∣ k + (0 + n + 1) - 1 + 1 ↔ k % (0 + n + 1) = 0 := by
    rw [show k + (0 + n + 1) - 1 + 1 = k + (0 + n + 1) by omega, Nat.dvd_add_self_right,
      Nat.dvd_iff_mod_eq_zero]
  rw [hk, Nat.succ_div]
  simp only [hdvd]

/-- The SINR of a block depends on the loop by its fading. -/
theorem blockSinr_congr {i j : ℕ} (hframe : q = p.withLoop q)
    (hfading : p.stochastics = true → q.rayleigh i = p.rayleigh j) :
    q.blockSinr M x i = p.blockSinr M x j := by
  have hterm : (if p.stochastics = true then q.rayleigh i else 0) =
      if p.stochastics = true then p.rayleigh j else 0 := ite_congr rfl hfading fun _ => rfl
  rw [blockSinr, blockSinr, ← hterm, hframe]
  rfl

theorem mod_sinrStep_eq_zero (hstep : 0 < p.sinrStep) (k : ℕ) :
    (k : ℤ) % p.sinrStep = 0 ↔ k % p.sinrStep.toNat = 0 := by
  have hcast : (p.sinrStep.toNat : ℤ) = p.sinrStep := Int.toNat_of_nonneg hstep.le
  rw [← Int.natCast_eq_zero, Int.natCast_mod, hcast]

/-- The next RBG has the SINR of the block it lies in. -/
theorem SinrVisited.nextSinr (h : SinrVisited M x p k q) (hstep : 0 < p.sinrStep) :
    q.nextSinr M x k = p.blockSinr M x (k / p.sinrStep.toNat) := by
  have hstep' : q.sinrStep = p.sinrStep := (congrArg PhyLayer.sinrStep h.frame :)
  have hpos : 0 < p.sinrStep.toNat := Int.lt_toNat.mpr hstep
  rw [PhyLayer.nextSinr, hstep']
  by_cases hk : k % p.sinrStep.toNat = 0
  · rw [if_pos ((mod_sinrStep_eq_zero hstep k).mpr hk)]
    refine blockSinr_congr h.frame fun hs => ?_
    have hstarted : p.started k = k / p.sinrStep.toNat := by
      obtain ⟨n, rfl⟩ := Nat.dvd_of_mod_eq_zero hk
      rw [started, Nat.mul_div_cancel_left n hpos, Nat.add_sub_assoc hpos,
        Nat.mul_add_div hpos, Nat.div_eq_of_lt (by omega), Nat.add_zero]
    rw [h.rayleigh hstep, if_pos hs, hstarted]
    exact congrArg p.rayleigh (Nat.zero_add _)
  · rw [if_neg (mt (mod_sinrStep_eq_zero hstep k).mp hk)]
    have hk0 : k ≠ 0 := by
      rintro rfl
      exact hk (Nat.zero_mod _)
    obtain ⟨j, rfl⟩ := Nat.exists_eq_succ_of_ne_zero hk0
    rw [Nat.succ_eq_add_one, Nat.add_sub_cancel, h.db hstep j j.lt_succ_self, Nat.succ_div, if_neg,
      Nat.add_zero]
    rwa [Nat.dvd_iff_mod_eq_zero]

theorem SinrVisited.next (h : SinrVisited M x p k q) :
    SinrVisited M x p (k + 1) (q.estimateSinr M x.distance k x.macroFading) := by
  have hstep' : q.sinrStep = p.sinrStep := (congrArg PhyLayer.sinrStep h.frame :)
  have hstoch : q.stochastics = p.stochastics := (congrArg PhyLayer.stochastics h.frame :)
  have hrsrp : ∀ d, q.rsrpOf M d = p.rsrpOf M d := by
    intro d
    rw [h.frame]
    rfl
  have hframe := withLoop_trans h.frame (estimateSinr_withLoop (M := M) q x k)
  rw [estimateSinr_eq] at hframe ⊢
  refine ⟨hframe, fun hstep f hf => ?_, fun f hf => ?_, fun f hf => ?_, ?_, ?_, fun hstep => ?_⟩
  · rcases Nat.lt_succ_iff_lt_or_eq.mp hf with hf | rfl
    · exact (update_below hf).trans (h.db hstep f hf)
    · exact (Function.update_self ..).trans (h.nextSinr hstep)
  · rcases Nat.lt_succ_iff_lt_or_eq.mp hf with hf | rfl
    · refine (update_below hf).trans ((h.linear f hf).trans ?_)
      exact congrArg (fun d => M.pow10 (d / 10)) (update_below hf).symm
    · refine (Function.update_self ..).trans ?_
      dsimp only
      rw [Function.update_self]
  · rcases Nat.lt_succ_iff_lt_or_eq.mp hf with hf | rfl
    · refine (update_below hf).trans ((h.rsrp f hf).trans ?_)
      exact congrArg (p.rsrpOf M) (update_below hf).symm
    · refine (Function.update_self ..).trans ((hrsrp _).trans ?_)
      dsimp only
      rw [Function.update_self]
  · refine (congrArg (· + _) h.dbSum).trans ?_
    rw [sum_update_succ, add_assoc]
  · refine (congrArg (· + _) h.rsrpSum).trans ?_
    rw [sum_update_succ, add_assoc]
  · funext i
    dsimp only
    rw [h.rayleigh hstep, hstep', hstoch, started_succ hstep]
    simp only [mod_sinrStep_eq_zero hstep]
    refine congrArg p.rayleigh ?_
    by_cases hs : p.stochastics = true
    · simp only [hs, and_true, if_true]
      omega
    · rw [if_neg hs, if_neg hs, if_neg fun h => hs h.2]

/-- A CQI that is renewed leaves the SINR. -/
theorem SinrVisited.cqi (h : SinrVisited M x p k q) (hq : q.estimateChannelQ M f = some r) :
    SinrVisited M x p k (r.estimateRate f) := by
  obtain ⟨v, -, rfl⟩ := estimateChannelQ_eq_some hq
  refine ⟨?_, h.db, h.linear, h.rsrp, h.dbSum, h.rsrpSum, h.rayleigh⟩
  refine withLoop_trans h.frame ?_
  rw [estimateRate_withLoop]
  rfl

/-- What the loop has done to the CQI, the rates and the metrics after `k` RBGs, when they are
renewed. -/
structure CqiVisited (M : LogMath) (p : PhyLayer K) (k : ℕ) (q : PhyLayer K) : Prop where
  quality : ∀ f < k, p.quality M (q.dbSinrV f) (q.lSinrV f) = some (q.qualityAt f)
  rates : ∀ f < k, q.tpV f = q.rateOf f
  cqiSum : q.cqiS = p.cqiS + ∑ f ∈ Finset.range k, q.cqiV f
  mcsSum : q.mcsS = p.mcsS + ∑ f ∈ Finset.range k, q.mcsV f
  effSum : q.effS = p.effS + ∑ f ∈ Finset.range k, q.effV f
  metrics : q.toPhyMetrics = (List.range k).foldl
    (fun m f => (m.estimateTp f (q.rateOf f)).estimateMetric f) p.toPhyMetrics

/-- A SINR that is renewed leaves the CQI. -/
theorem CqiVisited.sinr (h : CqiVisited M p k q) :
    CqiVisited M p k (q.estimateSinr M x.distance k x.macroFading) := by
  rw [estimateSinr_eq]
  refine ⟨fun f hf => ?_, h.rates, h.cqiSum, h.mcsSum, h.effSum, h.metrics⟩
  refine Eq.trans ?_ (h.quality f hf)
  dsimp only
  rw [update_below hf, update_below hf]

theorem CqiVisited.next (h : CqiVisited M p k q) (hframe : q = p.withLoop q)
    (hq : q.estimateChannelQ M k = some r) : CqiVisited M p (k + 1) (r.estimateRate k) := by
  obtain ⟨v, hv, rfl⟩ := estimateChannelQ_eq_some hq
  have hquality : p.quality M (q.dbSinrV k) (q.lSinrV k) = some v := by
    rw [← hv, hframe]
    rfl
  refine ⟨fun f hf => ?_, fun f hf => ?_, ?_, ?_, ?_, ?_⟩
  · rcases Nat.lt_succ_iff_lt_or_eq.mp hf with hf | rfl
    · refine (h.quality f hf).trans (congrArg some ?_)
      simp only [qualityAt, estimateRate, Channel.PhyLayer.setChannelQ, update_below hf]
    · refine hquality.trans (congrArg some ?_)
      simp only [qualityAt, estimateRate, Channel.PhyLayer.setChannelQ, Function.update_self]
  · rw [estimateRate, estimateMetric_eq]
    rcases Nat.lt_succ_iff_lt_or_eq.mp hf with hf | rfl
    · refine (update_below hf).trans ((h.rates f hf).trans ?_)
      simp only [rateOf, Channel.PhyLayer.setChannelQ, update_below hf]
    · exact Function.update_self ..
  · refine (congrArg (· + _) h.cqiSum).trans ?_
    simp only [estimateRate, Channel.PhyLayer.setChannelQ]
    rw [sum_update_succ, add_assoc]
  · refine (congrArg (· + _) h.mcsSum).trans ?_
    simp only [estimateRate, Channel.PhyLayer.setChannelQ]
    rw [sum_update_succ, add_assoc]
  · refine (congrArg (· + _) h.effSum).trans ?_
    simp only [estimateRate, Channel.PhyLayer.setChannelQ]
    rw [sum_update_succ, add_assoc]
  · rw [List.range_succ, List.foldl_concat]
    have hbelow : q.toPhyMetrics = (List.range k).foldl (fun m f => (m.estimateTp f
        (q.currentRi * q.nScRb * Function.update q.effV k v.eff f * (1 - q.overhead) *
          q.scalingFactor)).estimateMetric f) p.toPhyMetrics := by
      refine h.metrics.trans (List.foldl_ext _ _ _ fun m f hf => ?_)
      rw [update_below (List.mem_range.mp hf)]
      rfl
    simp only [estimateRate, rateOf, Channel.PhyLayer.setChannelQ]
    rw [← hbelow]

/-- The SINRs of a layer, of the RBGs and of all. -/
structure SinrState where
  db : ℕ → ℚ
  linear : ℕ → ℚ
  rsrp : ℕ → ℚ
  dbMean : ℚ
  linearMean : ℚ
  rsrpMean : ℚ

/-- What a layer makes of its SINRs. -/
structure CqiState where
  cqi : ℕ → ℤ
  mcs : ℕ → ℤ
  eff : ℕ → ℚ
  tp : ℕ → ℚ
  cqiMean : ℤ
  mcsMean : ℤ
  effMean : ℚ

/-- The SINRs in use. -/
def sinrs (p : PhyLayer K) : SinrState :=
  ⟨p.dbSinrV, p.lSinrV, p.rsrpV, p.dbSinrS, p.lSinrS, p.rsrpS⟩

/-- The CQIs, the MCSs, the efficiencies and the rates in use. -/
def cqis (p : PhyLayer K) : CqiState :=
  ⟨p.cqiV, p.mcsV, p.effV, p.tpV, p.cqiS, p.mcsS, p.effS⟩

/-- What the loop has done after `k` RBGs. -/
structure Visited (M : LogMath) (updateSinr updateCqi : Bool) (x : ChannelArgs)
    (p : PhyLayer K) (k : ℕ) (q : PhyLayer K) : Prop where
  frame : q = p.withLoop q
  sinr : updateSinr = true → SinrVisited M x p k q
  cqi : updateCqi = true → CqiVisited M p k q
  sinrHeld : updateSinr = false → q.sinrs = p.sinrs ∧ q.rayleigh = p.rayleigh
  cqiHeld : updateCqi = false → q.cqis = p.cqis ∧ q.toPhyMetrics = p.toPhyMetrics

theorem Visited.start : Visited M us uc x p 0 p := by
  refine ⟨rfl, fun _ => ?_, fun _ => ?_, fun _ => ⟨rfl, rfl⟩, fun _ => ⟨rfl, rfl⟩⟩
  · refine ⟨rfl, fun _ f hf => ?_, fun f hf => ?_, fun f hf => ?_, ?_, ?_, fun hstep => ?_⟩
    · exact absurd hf f.not_lt_zero
    · exact absurd hf f.not_lt_zero
    · exact absurd hf f.not_lt_zero
    · rw [Finset.range_zero, Finset.sum_empty, add_zero]
    · rw [Finset.range_zero, Finset.sum_empty, add_zero]
    · simp only [started_zero hstep, ite_self, Nat.add_zero]
  · refine ⟨fun f hf => absurd hf f.not_lt_zero, fun f hf => absurd hf f.not_lt_zero, ?_, ?_, ?_,
      rfl⟩
    · rw [Finset.range_zero, Finset.sum_empty, add_zero]
    · rw [Finset.range_zero, Finset.sum_empty, add_zero]
    · rw [Finset.range_zero, Finset.sum_empty, add_zero]

/-- The SINR of the next RBG. -/
private theorem Visited.nextSinr (h : Visited M us uc x p k q) :
    ∃ q₁, (if us then q.estimateSinr M x.distance k x.macroFading else q) = q₁ ∧
      q₁ = p.withLoop q₁ ∧ (us = true → SinrVisited M x p (k + 1) q₁) ∧
      (us = false → q₁.sinrs = p.sinrs ∧ q₁.rayleigh = p.rayleigh) ∧
      (uc = true → CqiVisited M p k q₁) ∧
      (uc = false → q₁.cqis = p.cqis ∧ q₁.toPhyMetrics = p.toPhyMetrics) := by
  refine ⟨_, rfl, ?_⟩
  cases us with
  | false => exact ⟨h.frame, by simp, h.sinrHeld, h.cqi, h.cqiHeld⟩
  | true =>
      have hnext := (h.sinr rfl).next
      refine ⟨hnext.frame, fun _ => hnext, by simp, fun huc => (h.cqi huc).sinr, fun huc => ?_⟩
      rw [if_pos rfl, estimateSinr_eq]
      exact h.cqiHeld huc

/-- **The body of the loop visits the next RBG.** -/
theorem Visited.next (h : Visited M us uc x p k q)
    (hvisit : visit M us uc x q k = some r) : Visited M us uc x p (k + 1) r := by
  obtain ⟨q₁, hq₁, hframe, hsinr, hsinrHeld, hcqi, hcqiHeld⟩ := h.nextSinr
  rw [visit, hq₁] at hvisit
  cases uc with
  | false =>
      obtain rfl := Option.some.inj hvisit
      exact ⟨hframe, hsinr, by simp, hsinrHeld, hcqiHeld⟩
  | true =>
      obtain ⟨r₁, hr₁, rfl⟩ := Option.map_eq_some_iff.mp hvisit
      have hnext := (hcqi rfl).next hframe hr₁
      refine ⟨?_, fun hus => (hsinr hus).cqi hr₁, fun _ => hnext, fun hus => ?_, by simp⟩
      · obtain ⟨v, -, rfl⟩ := estimateChannelQ_eq_some hr₁
        refine withLoop_trans hframe ?_
        rw [estimateRate_withLoop]
        rfl
      · obtain ⟨v, -, rfl⟩ := estimateChannelQ_eq_some hr₁
        exact hsinrHeld hus

/-- The loop visits all RBGs. -/
theorem visited_of_runAll : ∀ {k : ℕ} {q : PhyLayer K},
    runAll (visit M us uc x) p (List.range k) = some q → Visited M us uc x p k q := by
  intro k
  induction k with
  | zero =>
      intro q hrun
      obtain rfl := Option.some.inj hrun
      exact Visited.start
  | succ k ih =>
      intro q hrun
      rw [List.range_succ] at hrun
      obtain ⟨q₁, hq₁, hq⟩ := runAll_concat.mp hrun
      exact (ih hq₁).next hq

/-! ### One call -/

/-- `p`, with what a call writes taken from `q`. -/
def withCall (p q : PhyLayer K) : PhyLayer K :=
  { p.withLoop q with
    currentRi := q.currentRi, currentT := q.currentT, o2i := q.o2i, txDir := q.txDir
    dInComputed := q.dInComputed, dIn := q.dIn, pltw := q.pltw, plin := q.plin
    macroFading := q.macroFading, periodCounter := q.periodCounter, lSinrS := q.lSinrS
    uniformStochastics := q.uniformStochastics }

theorem withCall_trans (h : q = p.withCall q) (h' : r = q.withCall r) : r = p.withCall r := by
  rw [h] at h'
  exact h'

theorem prepare_eq (us uc : Bool) (x : ChannelArgs) (p : PhyLayer K) : p.prepare us uc x =
    { p with
      dbSinrS := if us then 0 else p.dbSinrS
      toPhyMetrics := p.toPhyMetrics.prepareMetrics x.oldestT x.avgTp
      rsrpS := if us then 0 else p.rsrpS
      cqiS := if uc then 0 else p.cqiS
      mcsS := if uc then 0 else p.mcsS
      effS := if uc then 0 else p.effS } := by
  cases us with
  | false =>
      cases uc with
      | false => rfl
      | true => rfl
  | true =>
      cases uc with
      | false => rfl
      | true => rfl

/-- `estimate_ri` writes the rank. -/
theorem estimateRi_eq (p : Channel.PhyLayer) :
    p.estimateRi = { p with currentRi := p.estimateRi.currentRi } := by
  rw [Channel.PhyLayer.estimateRi]
  split
  · split
    · rfl
    · rfl
  · rfl

/-- The rank after a call. -/
def riOf (p : PhyLayer K) (updateRi : Bool) : ℤ :=
  if updateRi then p.toPhyLayer.estimateRi.currentRi else p.currentRi

private theorem averageCqi_ite (uc : Bool) (p : PhyLayer K) :
    (if uc then p.averageCqi else p) = { p with
      cqiS := if uc then p.cqiS.tdiv p.nRbs else p.cqiS
      mcsS := if uc then p.mcsS.tdiv p.nRbs else p.mcsS
      effS := if uc then p.effS / p.nRbs else p.effS } := by
  cases uc with
  | false => rfl
  | true => rfl

private theorem averageSinr_ite (us : Bool) (p : PhyLayer K) :
    (if us then p.averageSinr M else p) = { p with
      dbSinrS := if us then p.dbSinrS / p.nRbs else p.dbSinrS
      rsrpS := if us then p.rsrpS / p.nRbs else p.rsrpS
      lSinrS := if us then M.pow10 (p.dbSinrS / p.nRbs / 10) else p.lSinrS } := by
  cases us with
  | false => rfl
  | true => rfl

private theorem estimateRi_ite (ri : Bool) (p : PhyLayer K) :
    { (if ri then { p with toPhyLayer := p.toPhyLayer.estimateRi } else p) with
        periodCounter := p.periodCounter + 1 } =
      { p with currentRi := p.riOf ri, periodCounter := p.periodCounter + 1 } := by
  cases ri with
  | false => rfl
  | true =>
      rw [if_pos rfl, estimateRi_eq]
      rfl

theorem finish_eq (us uc ri : Bool) (p : PhyLayer K) : finish M us uc ri p =
    { p with
      currentRi :=
        { p with dbSinrS := if us then p.dbSinrS / p.nRbs else p.dbSinrS }.riOf ri
      dbSinrS := if us then p.dbSinrS / p.nRbs else p.dbSinrS
      rsrpS := if us then p.rsrpS / p.nRbs else p.rsrpS
      lSinrS := if us then M.pow10 (p.dbSinrS / p.nRbs / 10) else p.lSinrS
      cqiS := if uc then p.cqiS.tdiv p.nRbs else p.cqiS
      mcsS := if uc then p.mcsS.tdiv p.nRbs else p.mcsS
      effS := if uc then p.effS / p.nRbs else p.effS
      periodCounter := p.periodCounter + 1 } := by
  refine (Eq.trans ?_ (estimateRi_ite ri (if us then (if uc then p.averageCqi else p).averageSinr M
    else if uc then p.averageCqi else p))).trans ?_
  · rw [finish]
    cases ri with
    | false => rfl
    | true => rfl
  · rw [averageCqi_ite, averageSinr_ite]
    cases ri with
    | false => rfl
    | true => rfl

/-- What is settled before the first call is over. -/
theorem settleIndoors_eq_some {fuel : ℕ} {d : ℚ} (h : p.settleIndoors M fuel d = some r) :
    r = { p with
      dIn := r.dIn, pltw := r.pltw, plin := r.plin, dInComputed := r.dInComputed
      uniformStochastics := r.uniformStochastics } ∧
    r.dInComputed = true ∧ (p.dInComputed = true → r = p) ∧
    (p.dInComputed = false → r.pltw = p.computePenetrationLosses M) := by
  rw [settleIndoors] at h
  by_cases hd : p.dInComputed = true
  · rw [if_pos hd] at h
    obtain rfl := Option.some.inj h
    exact ⟨rfl, hd, fun _ => rfl, by simp [hd]⟩
  · rw [if_neg hd] at h
    obtain ⟨v, -, rfl⟩ := Option.map_eq_some_iff.mp h
    exact ⟨rfl, rfl, fun h => absurd h hd, fun _ => rfl⟩

/-- The SINRs of a layer belong together. -/
structure SinrMeans (M : LogMath) (p : PhyLayer K) : Prop where
  linear : ∀ f < p.nRbs, p.lSinrV f = M.pow10 (p.dbSinrV f / 10)
  rsrp : ∀ f < p.nRbs, p.rsrpV f = p.rsrpOf M (p.dbSinrV f)
  dbMean : p.dbSinrS = (∑ f ∈ Finset.range p.nRbs, p.dbSinrV f) / p.nRbs
  rsrpMean : p.rsrpS = (∑ f ∈ Finset.range p.nRbs, p.rsrpV f) / p.nRbs
  linearMean : p.lSinrS = M.pow10 (p.dbSinrS / 10)

/-- What a layer makes of its SINRs belongs together. -/
structure CqiMeans (p : PhyLayer K) : Prop where
  cqiMean : p.cqiS = (∑ f ∈ Finset.range p.nRbs, p.cqiV f).tdiv p.nRbs
  mcsMean : p.mcsS = (∑ f ∈ Finset.range p.nRbs, p.mcsV f).tdiv p.nRbs
  effMean : p.effS = (∑ f ∈ Finset.range p.nRbs, p.effV f) / p.nRbs

/-- `p`, with the rank and the fadings that `q` has. -/
def withRank (p q : PhyLayer K) : PhyLayer K :=
  { p with currentRi := q.currentRi, rayleigh := q.rayleigh }

/-- What one call of `estimate_channel_state` does. -/
structure Called (M : LogMath) (p : PhyLayer K) (x : ChannelArgs) (p' : PhyLayer K) :
    Prop where
  frame : p' = p.withCall p'
  counter : p'.periodCounter = p.periodCounter + 1
  txDir : p'.txDir = x.txDir
  settled : p'.dInComputed = true
  indoors : p.dInComputed = true → p'.dIn = p.dIn ∧ p'.pltw = p.pltw ∧ p'.plin = p.plin
  penetration : p.dInComputed = false →
    p'.pltw = { p with o2i := x.o2i }.computePenetrationLosses M
  sinr : 0 < p.sinrStep → p.due p.sinrPeriod = true → ∀ f < p.nRbs,
    p'.dbSinrV f = (p'.withRank p).blockSinr M x (f / p.sinrStep.toNat)
  sinrMeans : p.due p.sinrPeriod = true → p'.SinrMeans M
  sinrHeld : p.due p.sinrPeriod = false → p'.sinrs = p.sinrs
  quality : p.due p.cqiPeriod = true → ∀ f < p.nRbs,
    p'.quality M (p'.dbSinrV f) (p'.lSinrV f) = some (p'.qualityAt f)
  rates : p.due p.cqiPeriod = true → ∀ f < p.nRbs, p'.tpV f = (p'.withRank p).rateOf f
  cqiMeans : p.due p.cqiPeriod = true → p'.CqiMeans
  cqiHeld : p.due p.cqiPeriod = false → p'.cqis = p.cqis
  rank : p'.currentRi = (p'.withRank p).riOf (p.due p.riPeriod)
  metrics : ∀ y : ChannelInput ℚ, y.oldestT = x.oldestT → y.avgTp = x.avgTp →
    y.currentT = x.currentT → y.updateCqi = p.due p.cqiPeriod →
    (∀ f < p.nRbs, y.tp f = (p'.withRank p).rateOf f) →
    p'.toPhyMetrics = p.toPhyMetrics.estimateChannelState y

/-- The parts of a call that comes back. -/
theorem estimateChannelState_eq_some {fuel : ℕ} {p' : PhyLayer K}
    (h : p.estimateChannelState M fuel x = some p') : 0 < p.nRbs ∧ ∃ r q,
      { p with
        currentT := x.currentT, o2i := x.o2i, txDir := x.txDir
        macroFading := x.macroFading }.settleIndoors M fuel x.distance = some r ∧
      runAll (visit M (p.due p.sinrPeriod) (p.due p.cqiPeriod) x)
        (r.prepare (p.due p.sinrPeriod) (p.due p.cqiPeriod) x) (List.range p.nRbs) = some q ∧
      p' = finish M (p.due p.sinrPeriod) (p.due p.cqiPeriod) (p.due p.riPeriod) q := by
  rw [estimateChannelState] at h
  by_cases hzero : p.cqiPeriod = 0 ∨ p.riPeriod = 0 ∨ p.sinrPeriod = 0 ∨ p.nRbs = 0
  · rw [if_pos hzero] at h
    cases h
  rw [if_neg hzero, Option.bind_eq_some_iff] at h
  obtain ⟨r, hr, h⟩ := h
  obtain ⟨q, hq, rfl⟩ := Option.map_eq_some_iff.mp h
  have hrbs : p.nRbs ≠ 0 := by
    intro h0
    exact hzero (Or.inr (Or.inr (Or.inr h0)))
  refine ⟨Nat.pos_of_ne_zero hrbs, r, q, hr, ?_⟩
  rw [(settleIndoors_eq_some hr).1] at hq ⊢
  exact ⟨hq, rfl⟩

/-- **What a call does.** -/
theorem called {fuel : ℕ} {p' : PhyLayer K}
    (h : p.estimateChannelState M fuel x = some p') : Called M p x p' := by
  obtain ⟨hrbs, r, q, hr, hq, rfl⟩ := estimateChannelState_eq_some h
  obtain ⟨hframe, hsettled, hsame, hpen⟩ := settleIndoors_eq_some hr
  generalize hus : p.due p.sinrPeriod = us at hq ⊢
  generalize huc : p.due p.cqiPeriod = uc at hq ⊢
  generalize hri : p.due p.riPeriod = ri at ⊢
  have hvis := visited_of_runAll hq
  have hrbs₁ : q.nRbs = p.nRbs := by
    rw [hvis.frame, prepare_eq, hframe]
    rfl
  have hblock : ∀ k, ((finish M us uc ri q).withRank p).blockSinr M x k =
      (r.prepare us uc x).blockSinr M x k := by
    intro k
    rw [finish_eq, hvis.frame, prepare_eq, hframe]
    rfl
  have hrate : ∀ f, ((finish M us uc ri q).withRank p).rateOf f = q.rateOf f := by
    intro f
    rw [finish_eq, hvis.frame, prepare_eq, hframe]
    rfl
  refine ⟨?frame, ?counter, ?txDir, ?settled, ?indoors, ?penetration, ?sinr, ?sinrMeans, ?sinrHeld,
    ?quality, ?rates, ?cqiMeans, ?cqiHeld, ?rank, ?metrics⟩
  case frame =>
    rw [finish_eq, hvis.frame, prepare_eq, hframe]
    rfl
  case counter =>
    rw [finish_eq, hvis.frame, prepare_eq, hframe]
    rfl
  case txDir =>
    rw [finish_eq, hvis.frame, prepare_eq, hframe]
    rfl
  case settled =>
    rw [finish_eq, hvis.frame, prepare_eq]
    exact hsettled
  case indoors =>
    intro hd
    rw [finish_eq, hvis.frame, prepare_eq, hsame hd]
    exact ⟨rfl, rfl, rfl⟩
  case penetration =>
    intro hd
    rw [finish_eq, hvis.frame, prepare_eq]
    exact hpen hd
  case sinr =>
    intro hstep hdue f hf
    have hstep₁ : 0 < (r.prepare us uc x).sinrStep := by
      rw [prepare_eq, hframe]
      exact hstep
    rw [hblock, finish_eq]
    refine ((hvis.sinr (hus.symm.trans hdue)).db hstep₁ f hf).trans ?_
    rw [prepare_eq, hframe]
  case sinrMeans =>
    intro hdue
    obtain rfl := hus.symm.trans hdue
    have hv := hvis.sinr rfl
    rw [finish_eq]
    refine ⟨fun f hf => hv.linear f (hrbs₁ ▸ hf), fun f hf => ?_, ?_, ?_, rfl⟩
    · refine (hv.rsrp f (hrbs₁ ▸ hf)).trans ?_
      rw [hvis.frame]
      rfl
    · have hsum := hv.dbSum
      rw [prepare_eq, ← hrbs₁] at hsum
      refine congrArg (· / (q.nRbs : ℚ)) (hsum.trans ?_)
      exact zero_add _
    · have hsum := hv.rsrpSum
      rw [prepare_eq, ← hrbs₁] at hsum
      refine congrArg (· / (q.nRbs : ℚ)) (hsum.trans ?_)
      exact zero_add _
  case sinrHeld =>
    intro hdue
    obtain rfl := hus.symm.trans hdue
    obtain ⟨hheld, -⟩ := hvis.sinrHeld rfl
    rw [prepare_eq, hframe] at hheld
    rw [finish_eq]
    exact hheld
  case quality =>
    intro hdue f hf
    obtain rfl := huc.symm.trans hdue
    have hv := (hvis.cqi rfl).quality f hf
    rw [finish_eq]
    refine Eq.trans ?_ hv
    rw [hvis.frame]
    rfl
  case rates =>
    intro hdue f hf
    obtain rfl := huc.symm.trans hdue
    rw [hrate, finish_eq]
    exact (hvis.cqi rfl).rates f hf
  case cqiMeans =>
    intro hdue
    obtain rfl := huc.symm.trans hdue
    have hv := hvis.cqi rfl
    rw [finish_eq]
    refine ⟨?_, ?_, ?_⟩
    · have hsum := hv.cqiSum
      rw [prepare_eq, ← hrbs₁] at hsum
      exact congrArg (Int.tdiv · (q.nRbs : ℤ)) (hsum.trans (zero_add _))
    · have hsum := hv.mcsSum
      rw [prepare_eq, ← hrbs₁] at hsum
      exact congrArg (Int.tdiv · (q.nRbs : ℤ)) (hsum.trans (zero_add _))
    · have hsum := hv.effSum
      rw [prepare_eq, ← hrbs₁] at hsum
      exact congrArg (· / (q.nRbs : ℚ)) (hsum.trans (zero_add _))
  case cqiHeld =>
    intro hdue
    obtain rfl := huc.symm.trans hdue
    obtain ⟨hheld, -⟩ := hvis.cqiHeld rfl
    rw [prepare_eq, hframe] at hheld
    rw [finish_eq]
    exact hheld
  case rank =>
    rw [hri, finish_eq, hvis.frame, prepare_eq, hframe]
    cases ri with
    | false => rfl
    | true => rfl
  case metrics =>
    intro y hold havg ht hcqi htp
    have hm : (r.prepare us uc x).toPhyMetrics =
        { p.toPhyMetrics with currentT := y.currentT }.prepareMetrics y.oldestT y.avgTp := by
      rw [prepare_eq, hframe, hold, havg, ht]
    rw [PhyMetrics.estimateChannelState, hcqi, huc, finish_eq, ← hm]
    cases uc with
    | false => exact (hvis.cqiHeld rfl).2
    | true =>
        refine (hvis.cqi rfl).metrics.trans ?_
        have hrange : (r.prepare us true x).nRbs = p.nRbs := by
          rw [prepare_eq, hframe]
          rfl
        rw [if_pos rfl, hrange]
        refine List.foldl_ext _ _ _ fun m f hf => ?_
        rw [htp f (List.mem_range.mp hf), hrate]

/-! ### Runs -/

variable {fuel : ℕ} {p₀ : PhyLayer K} {xs : List ChannelArgs}

theorem due_iff (p : PhyLayer K) (period : ℤ) :
    p.due period = true ↔ period.natAbs ∣ p.periodCounter := by
  rw [due, decide_eq_true_iff, ← Int.dvd_iff_emod_eq_zero, ← Int.natAbs_dvd,
    Int.natCast_dvd_natCast]

/-- The constructor leaves a step between the blocks. -/
theorem make_sinrStep_pos {tx : Direction} {id nRbs : ℕ} {c : PhyConfig K} {metricV : ℕ → K}
    {uniformStochastics rayleigh : Draws} (hpow : 0 < M.pow10 (delaySpread c.scenario))
    (hbandwidth : 0 < c.bandwidth) :
    0 < (make M tx id nRbs c metricV uniformStochastics rayleigh).sinrStep := by
  show 0 < (coherenceBw M c.scenario c.bandwidth nRbs).2
  have hn : (0 : ℚ) < c.bandwidth / (1 / (5 * M.pow10 (delaySpread c.scenario))) := by
    have : (0 : ℚ) < c.bandwidth := Int.cast_pos.mpr hbandwidth
    positivity
  rw [coherenceBw]
  by_cases hwide : 2 * (c.bandwidth / (1 / (5 * M.pow10 (delaySpread c.scenario)))) ≤ nRbs
  · rw [if_pos hwide]
    refine Int.floor_pos.mpr ?_
    rw [one_le_div hn]
    linarith
  · rw [if_neg hwide]
    exact Int.one_pos

private theorem call_step (p : PhyLayer K) (x : ChannelArgs) (p' : PhyLayer K)
    (hp : p = p₀.withCall p) (h : p.estimateChannelState M fuel x = some p') :
    p' = p₀.withCall p' ∧ p'.periodCounter = p.periodCounter + 1 := by
  have hcall := called h
  exact ⟨withCall_trans hp hcall.frame, hcall.counter⟩

/-- What calls never write. -/
theorem run_frame (hrun : runAll (estimateChannelState M fuel) p₀ xs = some p) :
    p = p₀.withCall p :=
  runAll_inv' (I := fun q => q = p₀.withCall q) (fun q x q' hq h => (call_step q x q' hq h).1)
    rfl hrun

/-- Inside or outside is settled by the first call. -/
theorem run_indoors (hsettled : p.dInComputed = true)
    (hrun : runAll (estimateChannelState M fuel) p xs = some q) :
    q.dIn = p.dIn ∧ q.pltw = p.pltw ∧ q.plin = p.plin := by
  have hinv := runAll_inv' (I := fun q => q.dInComputed = true ∧
    q.dIn = p.dIn ∧ q.pltw = p.pltw ∧ q.plin = p.plin) (fun q x q' hq h => ?_)
    ⟨hsettled, rfl, rfl, rfl⟩ hrun
  · exact hinv.2
  · obtain ⟨hset, hdIn, hpltw, hplin⟩ := hq
    have hcall := called h
    obtain ⟨hdIn', hpltw', hplin'⟩ := hcall.indoors hset
    exact ⟨hcall.settled, hdIn'.trans hdIn, hpltw'.trans hpltw, hplin'.trans hplin⟩

/-- A SINR goes back to the place of the UE, and to the rank and the fadings of then. -/
private theorem blockSinr_withRank (hp : p = p₀.withCall p) : (p.withRank q).blockSinr M x k =
    ({ p₀ with
      txDir := p.txDir, dIn := p.dIn, pltw := p.pltw, plin := p.plin }.withRank q).blockSinr
        M x k := by
  rw [hp]
  rfl

private theorem SinrMeans.congr (h : q.SinrMeans M) (hq : q = p₀.withCall q)
    (hp : p = p₀.withCall p) (hsinrs : p.sinrs = q.sinrs) : p.SinrMeans M := by
  have hdb : p.dbSinrV = q.dbSinrV := congrArg SinrState.db hsinrs
  have hlinear : p.lSinrV = q.lSinrV := congrArg SinrState.linear hsinrs
  have hrsrp : p.rsrpV = q.rsrpV := congrArg SinrState.rsrp hsinrs
  have hdbS : p.dbSinrS = q.dbSinrS := congrArg SinrState.dbMean hsinrs
  have hlinearS : p.lSinrS = q.lSinrS := congrArg SinrState.linearMean hsinrs
  have hrsrpS : p.rsrpS = q.rsrpS := congrArg SinrState.rsrpMean hsinrs
  have hrbs : p.nRbs = q.nRbs := by
    rw [hp, hq]
    rfl
  have hof : ∀ d, p.rsrpOf M d = q.rsrpOf M d := by
    intro d
    rw [hp, hq]
    rfl
  refine ⟨?_, ?_, ?_, ?_, ?_⟩
  · rw [hrbs, hlinear, hdb]
    exact h.linear
  · rw [hrbs, hrsrp, hdb]
    exact fun f hf => (h.rsrp f hf).trans (hof _).symm
  · rw [hdbS, hrbs, hdb]
    exact h.dbMean
  · rw [hrsrpS, hrbs, hrsrp]
    exact h.rsrpMean
  · rw [hlinearS, hdbS]
    exact h.linearMean

/-- **The SINRs in use are those of the last call that was due to renew them.** -/
theorem run_sinr (hstep : 0 < p₀.sinrStep) (hnew : p₀.periodCounter = 0) (hne : xs ≠ [])
    (hrun : runAll (estimateChannelState M fuel) p₀ xs = some p) :
    ∃ a x, runAll (estimateChannelState M fuel) p₀
        (xs.take (lastDue p₀.sinrPeriod.natAbs xs.length)) = some a ∧
      xs[lastDue p₀.sinrPeriod.natAbs xs.length]? = some x ∧ p.SinrMeans M ∧
      ∀ f < p₀.nRbs, p.dbSinrV f =
        ({ p with txDir := x.txDir }.withRank a).blockSinr M x (f / p₀.sinrStep.toNat) := by
  obtain ⟨a, x, b, ha, hx, hb, -, hrest, hframe, hdue, hview⟩ :=
    held (I := fun p => p = p₀.withCall p) (P := p₀.sinrPeriod.natAbs) sinrs (call_step)
      (fun q x q' hq h hdue => by
        refine (called h).sinrHeld (Bool.eq_false_iff.mpr fun h => ?_)
        rw [due_iff, hq] at h
        rw [hq] at hdue
        exact hdue h) rfl hnew hne hrun
  have hcall := called hb
  have hbframe := withCall_trans hframe hcall.frame
  have hpframe := run_frame hrun
  obtain ⟨hdIn, hpltw, hplin⟩ := run_indoors hcall.settled hrest
  have hdue' : a.due a.sinrPeriod = true := by
    rw [due_iff, hframe]
    rw [hframe] at hdue
    exact hdue
  refine ⟨a, x, ha, hx, (hcall.sinrMeans hdue').congr hbframe hpframe hview, fun f hf => ?_⟩
  have hrbs : a.nRbs = p₀.nRbs := by
    rw [hframe]
    rfl
  have hstep' : a.sinrStep = p₀.sinrStep := by
    rw [hframe]
    rfl
  have hplace : { p with txDir := x.txDir } = p₀.withCall { p with txDir := x.txDir } := by
    rw [hpframe]
    rfl
  have hdb : p.dbSinrV = b.dbSinrV := congrArg SinrState.db hview
  refine (congrFun hdb f).trans ((hcall.sinr (hstep'.symm ▸ hstep) hdue' f (hrbs ▸ hf)).trans ?_)
  rw [blockSinr_withRank hbframe, blockSinr_withRank hplace, hcall.txDir, hdIn, hpltw, hplin,
    hstep']

private theorem CqiMeans.congr (h : q.CqiMeans) (hq : q = p₀.withCall q)
    (hp : p = p₀.withCall p) (hcqis : p.cqis = q.cqis) : p.CqiMeans := by
  have hcqi : p.cqiV = q.cqiV := congrArg CqiState.cqi hcqis
  have hmcs : p.mcsV = q.mcsV := congrArg CqiState.mcs hcqis
  have heff : p.effV = q.effV := congrArg CqiState.eff hcqis
  have hcqiS : p.cqiS = q.cqiS := congrArg CqiState.cqiMean hcqis
  have hmcsS : p.mcsS = q.mcsS := congrArg CqiState.mcsMean hcqis
  have heffS : p.effS = q.effS := congrArg CqiState.effMean hcqis
  have hrbs : p.nRbs = q.nRbs := by
    rw [hp, hq]
    rfl
  refine ⟨?_, ?_, ?_⟩
  · rw [hcqiS, hcqi, hrbs]
    exact h.cqiMean
  · rw [hmcsS, hmcs, hrbs]
    exact h.mcsMean
  · rw [heffS, heff, hrbs]
    exact h.effMean

/-- The CQIs in use are what the last call that was due to renew them has made of its SINRs. -/
theorem run_cqi (hnew : p₀.periodCounter = 0) (hne : xs ≠ [])
    (hrun : runAll (estimateChannelState M fuel) p₀ xs = some p) :
    ∃ b c, runAll (estimateChannelState M fuel) p₀
        (xs.take (lastDue p₀.cqiPeriod.natAbs xs.length)) = some b ∧
      runAll (estimateChannelState M fuel) p₀
        (xs.take (lastDue p₀.cqiPeriod.natAbs xs.length + 1)) = some c ∧
      (p.dIn = c.dIn ∧ p.pltw = c.pltw ∧ p.plin = c.plin) ∧ p.CqiMeans ∧
      ∀ f < p₀.nRbs,
        p.quality M (c.dbSinrV f) (c.lSinrV f) = some (p.qualityAt f) ∧
          p.tpV f = (p.withRank b).rateOf f := by
  obtain ⟨b, x, c, hb, -, hc, hbc, hrest, hframe, hdue, hview⟩ :=
    held (I := fun p => p = p₀.withCall p) (P := p₀.cqiPeriod.natAbs) cqis (call_step)
      (fun q x q' hq h hdue => by
        refine (called h).cqiHeld (Bool.eq_false_iff.mpr fun h => ?_)
        rw [due_iff, hq] at h
        rw [hq] at hdue
        exact hdue h) rfl hnew hne hrun
  have hcall := called hc
  have hcframe := withCall_trans hframe hcall.frame
  have hpframe := run_frame hrun
  have hdue' : b.due b.cqiPeriod = true := by
    rw [due_iff, hframe]
    rw [hframe] at hdue
    exact hdue
  have hrbs : b.nRbs = p₀.nRbs := by
    rw [hframe]
    rfl
  have hcqi : p.cqiV = c.cqiV := congrArg CqiState.cqi hview
  have hmcs : p.mcsV = c.mcsV := congrArg CqiState.mcs hview
  have heff : p.effV = c.effV := congrArg CqiState.eff hview
  have htp : p.tpV = c.tpV := congrArg CqiState.tp hview
  refine ⟨b, c, hb, hbc, run_indoors hcall.settled hrest,
    (hcall.cqiMeans hdue').congr hcframe hpframe hview, fun f hf => ⟨?_, ?_⟩⟩
  · have hquality : ∀ d l, p.quality M d l = c.quality M d l := by
      intro d l
      rw [hpframe, hcframe]
      rfl
    rw [hquality, hcall.quality hdue' f (hrbs ▸ hf), qualityAt, qualityAt, hcqi, hmcs, heff]
  · have hrate : (p.withRank b).rateOf f = (c.withRank b).rateOf f := by
      have hof : (p.withRank b).rateOf f =
          ({ p₀ with effV := p.effV }.withRank b).rateOf f := by
        rw [hpframe]
        rfl
      rw [hof, heff, hcframe]
      rfl
    rw [hrate, htp, hcall.rates hdue' f (hrbs ▸ hf)]

/-- The call that the CQIs in use after `n` calls go back to. -/
def sampledAt (p : PhyLayer K) (n : ℕ) : ℕ :=
  lastDue p.sinrPeriod.natAbs (lastDue p.cqiPeriod.natAbs n + 1)

/-- A call that comes back has periods. -/
theorem period_pos {p' : PhyLayer K} (h : p.estimateChannelState M fuel x = some p') :
    0 < p.cqiPeriod.natAbs ∧ 0 < p.sinrPeriod.natAbs := by
  rw [Int.natAbs_pos, Int.natAbs_pos]
  refine ⟨fun h0 => ?_, fun h0 => ?_⟩
  · rw [estimateChannelState, if_pos (Or.inl h0)] at h
    cases h
  · rw [estimateChannelState, if_pos (Or.inr (Or.inr (Or.inl h0)))] at h
    cases h

/-- The SINRs of the call that the CQIs in use go back to. -/
private theorem run_told (hstep : 0 < p₀.sinrStep) (hnew : p₀.periodCounter = 0) (hne : xs ≠ [])
    (hrun : runAll (estimateChannelState M fuel) p₀ xs = some p) :
    ∃ a b x, runAll (estimateChannelState M fuel) p₀ (xs.take (p₀.sampledAt xs.length)) = some a ∧
      xs[p₀.sampledAt xs.length]? = some x ∧
      runAll (estimateChannelState M fuel) p₀
        (xs.take (lastDue p₀.cqiPeriod.natAbs xs.length)) = some b ∧
      ∀ f < p₀.nRbs, ∃ db,
        db = ({ p with txDir := x.txDir }.withRank a).blockSinr M x (f / p₀.sinrStep.toNat) ∧
        p.quality M db (M.pow10 (db / 10)) = some (p.qualityAt f) ∧
        p.tpV f = (p.withRank b).rateOf f := by
  obtain ⟨b, c, hb, hc, ⟨hdIn, hpltw, hplin⟩, -, hcqi⟩ := run_cqi hnew hne hrun
  have hlt := lastDue_lt p₀.cqiPeriod.natAbs (List.length_pos_iff.mpr hne)
  have hlen : (xs.take (lastDue p₀.cqiPeriod.natAbs xs.length + 1)).length =
      lastDue p₀.cqiPeriod.natAbs xs.length + 1 := by
    rw [List.length_take]
    omega
  have hne' : xs.take (lastDue p₀.cqiPeriod.natAbs xs.length + 1) ≠ [] := by
    rw [← List.length_pos_iff, hlen]
    exact Nat.succ_pos _
  obtain ⟨a, x, ha, hx, hmeans, hsinr⟩ := run_sinr hstep hnew hne' hc
  have hlt' : lastDue p₀.sinrPeriod.natAbs (lastDue p₀.cqiPeriod.natAbs xs.length + 1) <
      lastDue p₀.cqiPeriod.natAbs xs.length + 1 := lastDue_lt _ (Nat.succ_pos _)
  rw [hlen, List.take_take, Nat.min_eq_left hlt'.le] at ha
  rw [hlen, List.getElem?_take_of_lt hlt'] at hx
  refine ⟨a, b, x, ha, hx, hb, fun f hf => ⟨_, rfl, ?_, (hcqi f hf).2⟩⟩
  have hcframe := run_frame hc
  have hpframe := run_frame hrun
  have hplace : { p with txDir := x.txDir } = p₀.withCall { p with txDir := x.txDir } := by
    rw [hpframe]
    rfl
  have hplace' : { c with txDir := x.txDir } = p₀.withCall { c with txDir := x.txDir } := by
    rw [hcframe]
    rfl
  have hrbs : c.nRbs = p₀.nRbs := by
    rw [hcframe]
    rfl
  have hdb : ({ p with txDir := x.txDir }.withRank a).blockSinr M x (f / p₀.sinrStep.toNat) =
      c.dbSinrV f := by
    rw [hsinr f hf, blockSinr_withRank hplace, blockSinr_withRank hplace', hdIn, hpltw, hplin]
  rw [hdb, ← hmeans.linear f (hrbs ▸ hf)]
  exact (hcqi f hf).1

/-- After the calls `xs`, what is in use for every RBG is what the channel was when `a` was
called with `x`, by the rank `a` had and through the fading of the block the RBG lies in, and
the rate is by the rank that `b` had when it was called. -/
structure Sampled (M : LogMath) (fuel : ℕ) (p₀ : PhyLayer K) (xs : List ChannelArgs)
    (p a b : PhyLayer K) (x : ChannelArgs) : Prop where
  age : xs.length < p₀.sampledAt xs.length + p₀.sinrPeriod.natAbs + p₀.cqiPeriod.natAbs
  before : runAll (estimateChannelState M fuel) p₀ (xs.take (p₀.sampledAt xs.length)) = some a
  args : xs[p₀.sampledAt xs.length]? = some x
  renewed : runAll (estimateChannelState M fuel) p₀
    (xs.take (lastDue p₀.cqiPeriod.natAbs xs.length)) = some b
  told : ∀ f < p₀.nRbs, ∃ db,
    db = ({ p with txDir := x.txDir }.withRank a).blockSinr M x (f / p₀.sinrStep.toNat) ∧
    p.quality M db (M.pow10 (db / 10)) = some (p.qualityAt f) ∧
    p.tpV f = (p.withRank b).rateOf f

/-- What the scheduler is told goes back to one call, not long ago. -/
theorem sampled_of_run (hstep : 0 < p₀.sinrStep) (hnew : p₀.periodCounter = 0) (hne : xs ≠ [])
    (hrun : runAll (estimateChannelState M fuel) p₀ xs = some p) :
    ∃ a b x, Sampled M fuel p₀ xs p a b x := by
  obtain ⟨a, b, x, ha, hx, hb, htold⟩ := run_told hstep hnew hne hrun
  have hperiods : 0 < p₀.cqiPeriod.natAbs ∧ 0 < p₀.sinrPeriod.natAbs := by
    obtain ⟨y, ys, rfl⟩ := List.exists_cons_of_ne_nil hne
    obtain ⟨p₁, hp₁, -⟩ := runAll_cons.mp hrun
    exact period_pos hp₁
  have hold := lt_lastDue_add hperiods.1 (List.length_pos_iff.mpr hne)
  have hold' : lastDue p₀.cqiPeriod.natAbs xs.length + 1 <
      p₀.sampledAt xs.length + p₀.sinrPeriod.natAbs + 1 :=
    lt_lastDue_add hperiods.2 (Nat.succ_pos _)
  exact ⟨a, b, x, by omega, ha, hx, hb, htold⟩

/-- **What the scheduler is told goes back to one call, not long ago**, for every layer that the
constructor makes of a bandwidth. -/
theorem run_sampled (M : LogMath) (fuel : ℕ) (tx : Direction) (id nRbs : ℕ) (c : PhyConfig K)
    (metricV : ℕ → K) (uniformStochastics rayleigh : Draws) (xs : List ChannelArgs)
    (p : PhyLayer K) (hpow : 0 < M.pow10 (delaySpread c.scenario)) (hbandwidth : 0 < c.bandwidth)
    (hne : xs ≠ [])
    (hrun : runAll (estimateChannelState M fuel)
      (make M tx id nRbs c metricV uniformStochastics rayleigh) xs = some p) :
    ∃ a b x, Sampled M fuel (make M tx id nRbs c metricV uniformStochastics rayleigh) xs p a b x :=
  sampled_of_run (make_sinrStep_pos hpow hbandwidth) rfl hne hrun

/-- `pow` and `log10` at what the layer below asks, as doubles. -/
def tabledMath : LogMath where
  log _ := 0
  log2 _ := 0
  log10 x := if x = 10 then 1 else if x = 12 then 1.0791812460476249 else 0
  pow10 x := if x = -9.395 then 4.027170343254587e-10 else if x = 2 then 100 else 10

/-- Ten RBGs in three blocks. -/
def blockedConfig : PhyConfig ℚ where
  ue := ⟨3, 2, 1, 0⟩
  enb := ⟨.qam64, 3500000000, 12, 1⟩
  mcsTables := true
  scenario := .indoorShoppingMall
  stochastics := true
  cqiMode := .wideband
  targetBer := 0.1
  scalingFactor := 1
  antennaGainTx := 0
  antennaGainRx := 0
  txPower := 40
  alphaUl := 1
  nominalPuschP0 := 0
  setUlPow := true
  txPowerUl := 20
  powerBoost := 0
  noiseInterf := 20
  bandwidth := 1000000000
  metricH := { metricT := .maxTp, metricF := fun _ _ _ => 1 }

/-- The fading of the blocks is 0 and 10 dB in turn. -/
def blockedFading : Draws := fun i => if i % 2 = 0 then 0 else 10

/-- Their layer. -/
def blockedPhy : PhyLayer ℚ :=
  .make tabledMath .dl 0 10 blockedConfig (fun _ => 0) (fun _ => 0) blockedFading

/-- What a UE outside, 10 m away, asks for. -/
def outsideArgs : ChannelArgs where
  distance := 10
  macroFading := 0
  o2i := .outdoor
  txDir := .dl
  oldestT := 0
  avgTp := 0
  currentT := 0

/-- Five calls, with the SINR renewed by the first, the third and the fifth and the CQI by the
first and the fourth: the RBGs are told the SINRs of the third call, which are no longer those
in use. -/
theorem run_sampled_blocked : ∃ p,
    runAll (estimateChannelState tabledMath 1) blockedPhy (List.replicate 5 outsideArgs) = some p ∧
      (p.mcsV 3, p.mcsV 4, p.dbSinrV 3, p.dbSinrV 4) = (22, 11, 10, 20) ∧
      ∃ a b x, Sampled tabledMath 1 blockedPhy (List.replicate 5 outsideArgs) p a b x := by
  refine exists_of_view (fun p => (p.mcsV 3, p.mcsV 4, p.dbSinrV 3, p.dbSinrV 4))
    (x := (22, 11, 10, 20)) (by decide +kernel) fun p hp hview => ⟨hview, ?_⟩
  exact run_sampled tabledMath 1 .dl 0 10 blockedConfig _ _ blockedFading _ p (by decide +kernel)
    (by decide) (by simp) hp

/-! ### One report for all RBGs -/

/-- `p`, with another `cqi_mode`. -/
def withMode (p : PhyLayer K) (mode : CqiMode) : PhyLayer K := { p with cqiMode := mode }

private theorem settleIndoors_withMode (p : PhyLayer K) (mode : CqiMode) (d : ℚ) :
    (p.withMode mode).settleIndoors M fuel d =
      (p.settleIndoors M fuel d).map fun p => p.withMode mode := by
  rw [settleIndoors, settleIndoors]
  by_cases hd : p.dInComputed = true
  · rw [if_pos hd]
    exact if_pos hd
  · rw [if_neg hd, Option.map_map]
    exact if_neg hd

/-- The calls never look at `cqi_mode`. -/
theorem estimateChannelState_withMode (p : PhyLayer K) (mode : CqiMode) (x : ChannelArgs) :
    (p.withMode mode).estimateChannelState M fuel x =
      (p.estimateChannelState M fuel x).map fun p => p.withMode mode := by
  have hvisit : ∀ (us uc : Bool) (q : PhyLayer K) (f : ℕ), visit M us uc x (q.withMode mode) f =
      (visit M us uc x q f).map fun q => q.withMode mode := by
    intro us uc q f
    have hsinr : (if us then (q.withMode mode).estimateSinr M x.distance f x.macroFading
        else q.withMode mode) =
        (if us then q.estimateSinr M x.distance f x.macroFading else q).withMode mode := by
      cases us with
      | false => rfl
      | true =>
          rw [if_pos rfl, if_pos rfl, estimateSinr_eq, estimateSinr_eq]
          rfl
    rw [visit, visit, hsinr]
    cases uc with
    | false => rfl
    | true =>
        simp only [if_true, estimateChannelQ, channelQ_eq, Option.map_map]
        rfl
  have hloop : ∀ (us uc : Bool) (q : PhyLayer K), runAll (visit M us uc x)
      ((q.withMode mode).prepare us uc x) (List.range q.nRbs) =
      (runAll (visit M us uc x) (q.prepare us uc x) (List.range q.nRbs)).map
        fun q => q.withMode mode := by
    intro us uc q
    rw [← Simulation.runAll_map (hvisit us uc), prepare_eq, prepare_eq]
    rfl
  have hfinish : ∀ (us uc ri : Bool) (q : PhyLayer K),
      finish M us uc ri (q.withMode mode) = (finish M us uc ri q).withMode mode := by
    intro us uc ri q
    rw [finish_eq, finish_eq]
    rfl
  rw [estimateChannelState, estimateChannelState]
  by_cases hzero : p.cqiPeriod = 0 ∨ p.riPeriod = 0 ∨ p.sinrPeriod = 0 ∨ p.nRbs = 0
  · rw [if_pos hzero]
    exact if_pos hzero
  · rw [if_neg hzero]
    refine (if_neg hzero).trans ?_
    refine (congrArg (Option.bind · _) (settleIndoors_withMode { p with
      currentT := x.currentT, o2i := x.o2i, txDir := x.txDir
      macroFading := x.macroFading } mode x.distance)).trans ?_
    cases settleIndoors M fuel { p with
      currentT := x.currentT, o2i := x.o2i, txDir := x.txDir
      macroFading := x.macroFading } x.distance with
    | none => rfl
    | some r =>
        refine (congrArg (Option.map _) (hloop _ _ r)).trans ?_
        rw [Option.map_map, Option.bind_some, Option.map_map]
        exact congrArg (Option.map · _) (funext fun q => hfinish _ _ _ q)

/-- Without fading all blocks have one SINR. -/
private theorem blockSinr_of_not (hs : p.stochastics = false) (i j : ℕ) :
    p.blockSinr M x i = p.blockSinr M x j := by
  rw [blockSinr, blockSinr, if_neg (by simp [hs]), if_neg (by simp [hs])]

/-- The mean of values that are all one. -/
private theorem sum_div_of_const {v : ℕ → ℚ} {n f : ℕ} (hf : f < n)
    (hv : ∀ i < n, v i = v f) : (∑ i ∈ Finset.range n, v i) / n = v f := by
  have hn : (n : ℚ) ≠ 0 := Nat.cast_ne_zero.mpr (by omega)
  rw [Finset.sum_congr rfl fun i hi => hv i (Finset.mem_range.mp hi), Finset.sum_const,
    Finset.card_range, nsmul_eq_mul, mul_div_cancel_left₀ _ hn]

private theorem sum_tdiv_of_const {v : ℕ → ℤ} {n f : ℕ} (hf : f < n)
    (hv : ∀ i < n, v i = v f) : (∑ i ∈ Finset.range n, v i).tdiv n = v f := by
  have hn : (n : ℤ) ≠ 0 := Nat.cast_ne_zero.mpr (by omega)
  rw [Finset.sum_congr rfl fun i hi => hv i (Finset.mem_range.mp hi), Finset.sum_const,
    Finset.card_range, nsmul_eq_mul, Int.mul_tdiv_cancel_left _ hn]

/-- Without fading the means are the values of every RBG. -/
theorem run_uniform (hs : p₀.stochastics = false) (hstep : 0 < p₀.sinrStep)
    (hnew : p₀.periodCounter = 0) (hne : xs ≠ [])
    (hrun : runAll (estimateChannelState M fuel) p₀ xs = some p) (hf : f < p₀.nRbs) :
    p.dbSinrS = p.dbSinrV f ∧ p.cqiS = p.cqiV f ∧ p.mcsS = p.mcsV f ∧ p.effS = p.effV f := by
  have hframe := run_frame hrun
  have hrbs : p.nRbs = p₀.nRbs := by
    rw [hframe]
    rfl
  have hplain : ∀ q : PhyLayer K, ∀ dir,
      ({ p with txDir := dir }.withRank q).stochastics = false := by
    intro q dir
    rw [← hs, hframe]
    rfl
  obtain ⟨a, x, -, -, hmeans, hsinr⟩ := run_sinr hstep hnew hne hrun
  obtain ⟨b, c, -, -, -, hcqis, -⟩ := run_cqi hnew hne hrun
  obtain ⟨a', b', x', -, -, -, hsampled⟩ := run_told hstep hnew hne hrun
  have hdb : ∀ i < p.nRbs, p.dbSinrV i = p.dbSinrV f := by
    intro i hi
    rw [hsinr i (hrbs ▸ hi), hsinr f hf]
    exact blockSinr_of_not (hplain a _) _ _
  have hquality : ∀ i < p.nRbs, p.qualityAt i = p.qualityAt f := by
    intro i hi
    obtain ⟨db, hdb, hqi, -⟩ := hsampled i (hrbs ▸ hi)
    obtain ⟨db', hdb', hqf, -⟩ := hsampled f hf
    have hsame : db = db' := by
      rw [hdb, hdb']
      exact blockSinr_of_not (hplain a' _) _ _
    rw [hsame] at hqi
    exact Option.some.inj (hqi.symm.trans hqf)
  have hf' : f < p.nRbs := hrbs ▸ hf
  refine ⟨?_, ?_, ?_, ?_⟩
  · rw [hmeans.dbMean]
    exact sum_div_of_const hf' hdb
  · rw [hcqis.cqiMean]
    exact sum_tdiv_of_const hf' fun i hi => congrArg Quality.cqi (hquality i hi)
  · rw [hcqis.mcsMean]
    exact sum_tdiv_of_const hf' fun i hi => congrArg Quality.mcs (hquality i hi)
  · rw [hcqis.effMean]
    exact sum_div_of_const hf' fun i hi => congrArg Quality.eff (hquality i hi)

/-- **Without fading one report for all RBGs loses nothing.**  A layer in wideband mode answers
for every RBG, after any calls, what it would answer in the mode that reports each of them. -/
theorem run_wideband_eq_rbgs (hs : p₀.stochastics = false) (hstep : 0 < p₀.sinrStep)
    (hnew : p₀.periodCounter = 0) (hne : xs ≠ [])
    (hrun : runAll (estimateChannelState M fuel) (p₀.withMode .wideband) xs = some p) :
    ∃ q, runAll (estimateChannelState M fuel) (p₀.withMode .rbgs) xs = some q ∧
      ∀ f < p₀.nRbs, p.getMcs f = q.getMcs f ∧ p.getSinr f = q.getSinr f ∧
        p.getCqi f = q.getCqi f ∧ p.getEff f = q.getEff f := by
  have hmap := fun mode => Simulation.runAll_map (f := estimateChannelState M fuel)
    (φ := fun p : PhyLayer K => p.withMode mode)
    (fun q x => estimateChannelState_withMode q mode x) p₀ xs
  rw [hmap] at hrun
  obtain ⟨r, hr, rfl⟩ := Option.map_eq_some_iff.mp hrun
  refine ⟨r.withMode .rbgs, by rw [hmap, hr]; rfl, fun f hf => ?_⟩
  obtain ⟨hdb, hcqi, hmcs, heff⟩ := run_uniform hs hstep hnew hne hr hf
  exact ⟨hmcs, hdb, hcqi, heff⟩

/-- Three calls of the layer above, without its fading. -/
theorem run_wideband_eq_rbgs_blocked : ∃ p,
    runAll (estimateChannelState tabledMath 1)
        ({ blockedPhy with stochastics := false }.withMode .wideband)
        (List.replicate 3 outsideArgs) = some p ∧ p.mcsS = 11 ∧
      ∃ q, runAll (estimateChannelState tabledMath 1)
          ({ blockedPhy with stochastics := false }.withMode .rbgs)
          (List.replicate 3 outsideArgs) = some q ∧
        ∀ f < 10, p.getMcs f = q.getMcs f ∧ p.getSinr f = q.getSinr f ∧
          p.getCqi f = q.getCqi f ∧ p.getEff f = q.getEff f := by
  refine exists_of_view (fun p => p.mcsS) (x := 11) (by decide +kernel) fun p hp hview => ?_
  exact ⟨hview, run_wideband_eq_rbgs rfl
    (by decide +kernel) rfl (by simp) hp⟩

end PhyLayer

end NetworkEmulator.Emulation
