/-
The channel state of a UE in one direction: `estimate_channel_state` of
`src/phy_layer/phy_layer.cpp` and what it calls.

`Channel.PhyLayer` chooses ranks, CQIs and MCSs from SINR values, and `PhyMetrics` turns
rates into metrics.  Here the SINR values are found, from the distance, the losses, the
fading and the noise, and the layer goes through its periods: each call counts one, and
renews the SINR, the CQI and the rank when their periods have passed.  Numbers are exact, so
sums and means are not rounded.

What the logarithms and powers of `cmath` answer is a parameter, and so are the fading a
call of `compute_rayleigh` finds and the noise and interference, which `init` finds with
members that have no value yet.  `none` is a call that does not return: a period of zero, a
grid without RBGs, a row of `MCS_SINR` that is not there, or the loop of `compute_d_in` when
it goes on past its bound.
-/
import NetworkEmulator.Model.Mobility
import NetworkEmulator.Model.PhyLayer
import NetworkEmulator.Model.ResourceBlock
import NetworkEmulator.Model.Simulator
import NetworkEmulator.Library.Runs

namespace NetworkEmulator.Emulation

/-! ### What a layer has -/

/-- The logarithms and the powers of 10 of `cmath`. -/
structure LogMath where
  log : ℚ → ℚ
  log2 : ℚ → ℚ
  log10 : ℚ → ℚ
  pow10 : ℚ → ℚ

/-- `OUTDOOR`, `IN_BUILDING` and `IN_CAR`. -/
inductive O2i where
  | outdoor
  | inBuilding
  | inCar
  deriving DecidableEq, Repr

/-- `CQI_WIDEBAND`, `CQI_RBGS` and any other `cqi_mode`. -/
inductive CqiMode where
  | wideband
  | rbgs
  | other
  deriving DecidableEq, Repr

/-- `phy_layer`. -/
structure PhyLayer (K : Type) extends Channel.PhyLayer, PhyMetrics ℚ K where
  scenario : Scenario
  stochastics : Bool
  cqiMode : CqiMode
  targetBer : ℚ
  overhead : ℚ
  scalingFactor : ℚ
  antennaGainTx : ℚ
  antennaGainRx : ℚ
  txPowerENb : ℚ
  alphaUl : ℚ
  nominalPuschP0 : ℚ
  setUlPow : Bool
  txPowerUl : ℚ
  powerBoost : ℚ
  noiseInterf : ℚ
  sinrRbs : ℤ
  sinrStep : ℤ
  o2i : O2i := .outdoor
  txDir : Direction := .dl
  dInComputed : Bool := false
  dIn : ℚ := 0
  pltw : ℚ := 0
  plin : ℚ := 0
  pathloss : ℚ := 0
  macroFading : ℚ := 0
  periodCounter : ℕ := 0
  dbSinrV : ℕ → ℚ := fun _ => 0
  lSinrV : ℕ → ℚ := fun _ => 0
  rsrpV : ℕ → ℚ := fun _ => 0
  lSinrS : ℚ := 0
  rsrpS : ℚ := 0
  cqiS : ℤ := 0
  mcsS : ℤ := 0
  effS : ℚ := 0
  uniformStochastics : Draws
  rayleigh : Draws

/-- What the configuration says of a layer, in its direction. -/
structure PhyConfig (K : Type) where
  ue : Channel.PhyUeConfig
  enb : Channel.PhyEnbConfig
  mcsTables : Bool
  scenario : Scenario
  stochastics : Bool
  cqiMode : CqiMode
  targetBer : ℚ
  scalingFactor : ℚ
  antennaGainTx : ℚ
  antennaGainRx : ℚ
  txPower : ℚ
  alphaUl : ℚ
  nominalPuschP0 : ℚ
  setUlPow : Bool
  txPowerUl : ℚ
  powerBoost : ℚ
  noiseInterf : ℚ
  bandwidth : ℤ
  metricH : MetricHandler ℚ K

/-- What a call of `estimate_channel_state` is given. -/
structure ChannelArgs where
  distance : ℚ
  macroFading : ℚ
  o2i : O2i
  txDir : Direction
  oldestT : ℚ
  avgTp : ℚ
  currentT : ℚ

/-! ### Losses -/

/-- The delay spread of `compute_coherence_bw`, as a power of 10. -/
def delaySpread : Scenario → ℚ
  | .ruralMacrocell => -7.46
  | .urbanMicrocell => (-7.14 - 6.83) / 2
  | .urbanMacrocell => (-6.955 - 6.28) / 2
  | .indoorOpenOffice => (-7.692 - 7.173) / 2
  | .indoorMixedOffice => (-7.692 - 7.173) / 2
  | .indoorShoppingMall => (-9.35 - 9.44) / 2

/-- `compute_coherence_bw`: `sinr_rbs` and `sinr_step`. -/
def coherenceBw (M : LogMath) (scenario : Scenario) (bandwidth : ℤ) (nRbs : ℕ) : ℤ × ℤ :=
  let bc := 1 / (5 * M.pow10 (delaySpread scenario))
  let n := bandwidth / bc
  if 2 * n ≤ nRbs then (⌈n⌉, ⌊nRbs / n⌋) else (nRbs, 1)

/-- The `switch` of `calculateOxygenLoss`. -/
def oxygenLosses : List (ℤ × ℚ) :=
  [(53, 1), (54, 2.2), (55, 4), (56, 6.6), (57, 9.7), (58, 12.6), (59, 14.6), (60, 15),
    (61, 14.6), (62, 14.3), (63, 10.5), (64, 6.8), (65, 3.9), (66, 1.9), (67, 1)]

/-- `calculateOxygenLoss`. -/
def calculateOxygenLoss (freqGhz : ℚ) : ℚ := (oxygenLosses.lookup (truncToInt freqGhz)).getD 0

/-- The coefficients of `compute_pathloss_ABG`, by the scenario, whether there is line of sight
and whether the frequency is under 6 GHz. -/
def abgCoefficients : Scenario → Bool → Bool → ℚ × ℚ × ℚ
  | .ruralMacrocell, true, _ => (2.16, 32.4, 2)
  | .ruralMacrocell, false, _ => (2.75, 32.4, 2)
  | .urbanMacrocell, true, true => (2.2, 28, 2)
  | .urbanMacrocell, true, false => (1.9, 35.8, 1.9)
  | .urbanMacrocell, false, _ => (3.5, 13.6, 2.4)
  | .urbanMicrocell, true, true => (2.27, 27.02, 2)
  | .urbanMicrocell, true, false => (1.1, 46.8, 2.1)
  | .urbanMicrocell, false, _ => (2.8, 31.4, 2.7)
  | .indoorOpenOffice, true, true | .indoorMixedOffice, true, true => (1.87, 32.82, 2)
  | .indoorOpenOffice, true, false | .indoorMixedOffice, true, false => (1.6, 32.9, 1.8)
  | .indoorOpenOffice, false, true | .indoorMixedOffice, false, true => (4.33, 11.5, 2)
  | .indoorOpenOffice, false, false | .indoorMixedOffice, false, false => (3.9, 19, 2.1)
  | .indoorShoppingMall, true, _ => (1.9, 31.2, 2.2)
  | .indoorShoppingMall, false, _ => (2, 34.4, 2.3)

namespace PhyLayer

variable {K : Type} (M : LogMath)

/-- The constructor, and `init`. -/
def make (tx : Direction) (id nRbs : ℕ) (c : PhyConfig K) (metricV : ℕ → K)
    (uniformStochastics rayleigh : Draws) : PhyLayer K where
  toPhyLayer := Channel.PhyLayer.make tx c.mcsTables c.ue c.enb
  toPhyMetrics :=
    { id := id, nRbs := nRbs, metricH := c.metricH, metricV := metricV }
  scenario := c.scenario
  stochastics := c.stochastics
  cqiMode := c.cqiMode
  targetBer := c.targetBer
  overhead := NetworkEmulator.PhyLayer.getOverhead (.ofInt 32 (truncToInt c.enb.frequency)) tx
  scalingFactor := c.scalingFactor
  antennaGainTx := c.antennaGainTx
  antennaGainRx := c.antennaGainRx
  txPowerENb := c.txPower
  alphaUl := c.alphaUl
  nominalPuschP0 := c.nominalPuschP0
  setUlPow := c.setUlPow
  txPowerUl := c.txPowerUl
  powerBoost := c.powerBoost
  noiseInterf := c.noiseInterf
  sinrRbs := (coherenceBw M c.scenario c.bandwidth nRbs).1
  sinrStep := (coherenceBw M c.scenario c.bandwidth nRbs).2
  txDir := tx
  uniformStochastics := uniformStochastics
  rayleigh := rayleigh

/-- `freq_ghz`. -/
def freqGhz (p : PhyLayer K) : ℚ := p.freq / 1000000000

/-- `compute_pathloss_ABG`. -/
def computePathlossABG (p : PhyLayer K) (distance : ℚ) (los : Bool) : ℚ :=
  let (alpha, beta, gamma) := abgCoefficients p.scenario los (decide (p.freqGhz < 6))
  10 * alpha * M.log10 (distance - p.dIn) + beta + 10 * gamma * M.log10 p.freqGhz

/-- `compute_penetration_losses`. -/
def computePenetrationLosses (p : PhyLayer K) : ℚ :=
  let f := p.freqGhz
  match p.o2i with
  | .outdoor => 0
  | .inBuilding =>
    if f ≤ 6 then 12
    else
      match p.scenario with
      | .ruralMacrocell =>
        5 - 10 * M.log10
          (0.3 * M.pow10 ((-2 - 0.2 * f) / 10) + 0.7 * M.pow10 ((-5 - 4 * f) / 10))
      | .urbanMicrocell | .urbanMacrocell =>
        5 - 10 * M.log10
          (0.7 * M.pow10 ((-23 - 0.3 * f) / 10) + 0.3 * M.pow10 ((-5 - 4 * f) / 10))
      | _ => 10
  | .inCar => 6

/-- The distance into a building that four draws stand for. -/
def drawDIn (scenario : Scenario) (draws : Draws) : Option ℚ :=
  match scenario with
  | .ruralMacrocell => some (min (draws 2 * 10) (draws 3 * 10))
  | .urbanMicrocell | .urbanMacrocell => some (min (draws 0 * 25) (draws 1 * 25))
  | _ => none

/-- `compute_d_in`, the draws it leaves, and the bound on the passes of its loop. -/
def computeDIn (scenario : Scenario) (d : ℚ) : ℕ → Draws → Option (ℚ × Draws)
  | 0, _ => none
  | n + 1, draws =>
    match drawDIn scenario draws with
    | none => some (0, fun i => draws (i + 4))
    | some dIn =>
      if d ≤ dIn then computeDIn scenario d n fun i => draws (i + 4)
      else some (dIn, fun i => draws (i + 4))

/-- `compute_losses`. -/
def computeLosses (p : PhyLayer K) (distance : ℚ) : ℚ :=
  calculateOxygenLoss p.freqGhz * distance / 1000 + p.pltw + p.plin

/-- The top of `estimate_channel_state`, when `d_in_computed` is not set. -/
def settleIndoors (fuel : ℕ) (p : PhyLayer K) (distance : ℚ) : Option (PhyLayer K) :=
  if p.dInComputed then some p
  else (computeDIn p.scenario distance fuel p.uniformStochastics).map fun (dIn, draws) =>
    { p with
      dIn := dIn
      pltw := p.computePenetrationLosses M
      plin := 1 / 2 * dIn
      dInComputed := true
      uniformStochastics := draws }

/-! ### SINR -/

/-- The two bounds `sinr_power_model` puts on the power of a UE. -/
def clampPower (power : ℚ) : ℚ := max 10 (min power 23)

/-- The power of a UE in the uplink.  Inside a building, closer than the way into it, the path
loss is no number, or infinite at its wall, and the bounds decide. -/
def ulTxPower (p : PhyLayer K) (distance : ℚ) : ℚ :=
  if p.setUlPow then clampPower p.txPowerUl
  else if p.dIn < distance then
    clampPower (p.nominalPuschP0 + p.alphaUl * p.computePathlossABG M distance true)
  else if distance = p.dIn ∧ p.alphaUl < 0 then 23
  else 10

/-- `sinr_power_model`, and the layer it leaves. -/
def sinrPowerModel (p : PhyLayer K) (distance pathloss macroFading : ℚ) : ℚ × PhyLayer K :=
  let (txPower, nRbsLocal) :=
    match p.txDir with
    | .ul => (p.ulTxPower M distance, (1 : ℚ))
    | .dl => (p.txPowerENb, (p.nRbs : ℚ))
  let rayleigh := if p.stochastics then p.rayleigh 0 else 0
  (txPower - 10 * M.log10 nRbsLocal + rayleigh - pathloss + macroFading + p.antennaGainTx
      + p.antennaGainRx - p.noiseInterf - 10 * M.log10 p.currentRi,
    if p.stochastics then { p with rayleigh := p.rayleigh.tail } else p)

/-- The value of RBG `f` in `estimate_sinr`: a new one at the start of each step of RBGs, or
that of the RBG before. -/
def dbSinrOf (p : PhyLayer K) (f : ℕ) (distance macroFading : ℚ) : ℚ × PhyLayer K :=
  if f % p.sinrStep = 0 then p.sinrPowerModel M distance (p.computeLosses distance) macroFading
  else (p.dbSinrV (f - 1), p)

/-- `estimate_sinr`. -/
def estimateSinr (p : PhyLayer K) (distance : ℚ) (f : ℕ) (macroFading : ℚ) : PhyLayer K :=
  let (dbSinr, p) :=
    { p with pathloss := p.computeLosses distance }.dbSinrOf M f distance macroFading
  let rsrp := dbSinr + p.noiseInterf - 10 * M.log10 p.nRbs - 10 * M.log10 p.nScRb + p.powerBoost
  { p with
    dbSinrV := Function.update p.dbSinrV f dbSinr
    dbSinrS := p.dbSinrS + dbSinr
    rsrpV := Function.update p.rsrpV f rsrp
    rsrpS := p.rsrpS + rsrp
    lSinrV := Function.update p.lSinrV f (M.pow10 (dbSinr / 10)) }

/-! ### CQI, rate and metric -/

/-- `estimate_eff_from_sinr`. -/
def estimateEffFromSinr (p : PhyLayer K) (sinr : ℚ) : ℚ :=
  M.log2 (1 + sinr / -M.log (5 * p.targetBer / 1.5))

/-- `channel_q_tables` or `channel_q_efficiency`. -/
def channelQ (p : PhyLayer K) (f : ℕ) : Option (PhyLayer K) :=
  if p.mcsTables then
    (p.toPhyLayer.channelQTables f (p.dbSinrV f)).map fun q => { p with toPhyLayer := q }
  else
    some { p with
      toPhyLayer := p.toPhyLayer.channelQEfficiency f (p.estimateEffFromSinr M (p.lSinrV f)) }

/-- `estimate_channel_q`. -/
def estimateChannelQ (p : PhyLayer K) (f : ℕ) : Option (PhyLayer K) :=
  (p.channelQ M f).map fun p =>
    { p with mcsS := p.mcsS + p.mcsV f, cqiS := p.cqiS + p.cqiV f, effS := p.effS + p.effV f }

/-- The rate `estimate_tp` finds. -/
def rateOf (p : PhyLayer K) (f : ℕ) : ℚ :=
  p.currentRi * p.nScRb * p.effV f * (1 - p.overhead) * p.scalingFactor

/-- `estimate_tp` and `estimate_metric`. -/
def estimateRate (p : PhyLayer K) (f : ℕ) : PhyLayer K :=
  { p with toPhyMetrics := (p.toPhyMetrics.estimateTp f (p.rateOf f)).estimateMetric f }

/-- `average_sinr`. -/
def averageSinr (p : PhyLayer K) : PhyLayer K :=
  { p with
    dbSinrS := p.dbSinrS / p.nRbs
    rsrpS := p.rsrpS / p.nRbs
    lSinrS := M.pow10 (p.dbSinrS / p.nRbs / 10) }

/-- `average_cqi`; the CQI and the MCS are divided as integers. -/
def averageCqi (p : PhyLayer K) : PhyLayer K :=
  { p with
    cqiS := p.cqiS.tdiv p.nRbs
    mcsS := p.mcsS.tdiv p.nRbs
    effS := p.effS / p.nRbs }

/-- `reset_cqi`. -/
def resetCqi (p : PhyLayer K) : PhyLayer K := { p with cqiS := 0, mcsS := 0, effS := 0 }

/-! ### The periods -/

/-- Whether a period has passed. -/
def due (p : PhyLayer K) (period : ℤ) : Bool := (p.periodCounter : ℤ) % period = 0

/-- The body of the loop of `estimate_channel_state`. -/
def visit (updateSinr updateCqi : Bool) (x : ChannelArgs) (p : PhyLayer K) (f : ℕ) :
    Option (PhyLayer K) :=
  let p := if updateSinr then p.estimateSinr M x.distance f x.macroFading else p
  if updateCqi then (p.estimateChannelQ M f).map fun p => p.estimateRate f else some p

/-- What `estimate_channel_state` does before its loop. -/
def prepare (updateSinr updateCqi : Bool) (x : ChannelArgs) (p : PhyLayer K) : PhyLayer K :=
  let p := if updateCqi then p.resetCqi else p
  let p := if updateSinr then { p with rsrpS := 0, dbSinrS := 0 } else p
  { p with toPhyMetrics := p.toPhyMetrics.prepareMetrics x.oldestT x.avgTp }

/-- What `estimate_channel_state` does after its loop. -/
def finish (updateSinr updateCqi updateRi : Bool) (p : PhyLayer K) : PhyLayer K :=
  let p := if updateCqi then p.averageCqi else p
  let p := if updateSinr then p.averageSinr M else p
  let p := if updateRi then { p with toPhyLayer := p.toPhyLayer.estimateRi } else p
  { p with periodCounter := p.periodCounter + 1 }

/-- `estimate_channel_state`. -/
def estimateChannelState (fuel : ℕ) (p : PhyLayer K) (x : ChannelArgs) : Option (PhyLayer K) :=
  if p.cqiPeriod = 0 ∨ p.riPeriod = 0 ∨ p.sinrPeriod = 0 ∨ p.nRbs = 0 then none
  else
    ({ p with
        currentT := x.currentT, o2i := x.o2i, txDir := x.txDir
        macroFading := x.macroFading }.settleIndoors M fuel x.distance).bind fun p =>
      let updateCqi := p.due p.cqiPeriod
      let updateRi := p.due p.riPeriod
      let updateSinr := p.due p.sinrPeriod
      (Runs.runAll (visit M updateSinr updateCqi x) (p.prepare updateSinr updateCqi x)
        (List.range p.nRbs)).map (finish M updateSinr updateCqi updateRi)

/-! ### What the MAC layer asks -/

/-- `get_mcs`. -/
def getMcs (p : PhyLayer K) (f : ℕ) : ℤ :=
  match p.cqiMode with
  | .wideband => p.mcsS
  | .rbgs => p.mcsV f
  | .other => -1

/-- `get_sinr`. -/
def getSinr (p : PhyLayer K) (f : ℕ) : ℚ :=
  match p.cqiMode with
  | .wideband => p.dbSinrS
  | .rbgs => p.dbSinrV f
  | .other => -1

/-- `get_cqi`. -/
def getCqi (p : PhyLayer K) (f : ℕ) : ℤ :=
  match p.cqiMode with
  | .wideband => p.cqiS
  | .rbgs => p.cqiV f
  | .other => -1

/-- `get_eff`. -/
def getEff (p : PhyLayer K) (f : ℕ) : ℚ :=
  match p.cqiMode with
  | .wideband => p.effS
  | .rbgs => p.effV f
  | .other => -1

end PhyLayer

end NetworkEmulator.Emulation
