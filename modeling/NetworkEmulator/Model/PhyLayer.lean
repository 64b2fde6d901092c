/-
What a UE's physical layer makes of its channel, `src/phy_layer/phy_layer.cpp`.

Modelled are the choice of the rank, the two ways of choosing CQI and MCS, by tables of
SINR thresholds and by spectral efficiency, and the period after which the SINR is
renewed, with the copy of that computation in `src/ue/ue.cpp`.  SINR values in dB and
spectral efficiencies come in from outside: how they are found from pathloss, fading and
noise is not modelled.  The namespace sets the layer apart from the part of it that
`Simulator` has.
-/
import NetworkEmulator.Library.LinearSearch
import NetworkEmulator.Model.McsSinr
import NetworkEmulator.Model.ResourceGrid

namespace NetworkEmulator.Channel

open LinearSearch (stop)

/-! ### The tables of `phy_l_definitions.h` -/

/-- `LIGHTSPEED`. -/
def lightspeed : ℚ := 300000000

/-- `SCH_N_RE_DEFAULT`. -/
def schNReDefault : ℤ := 12

/-- `EFF_2_CQI`. -/
def eff2Cqi : Modulation → List ℚ
  | .qam64 =>
    [0, 0.1523, 0.2344, 0.3770, 0.6016, 0.8770, 1.1758, 1.4766, 1.9141, 2.4063, 2.73050, 3.3223,
      3.9023, 4.5234, 5.1152, 5.5547]
  | .qam256 =>
    [0, 0.1523, 0.3770, 0.8770, 1.4766, 1.9141, 2.4063, 2.7305, 3.3223, 3.9023, 4.5234, 5.1152,
      5.5547, 6.2266, 6.9141, 7.4063]

/-- `RI_THRES`. -/
def riThres : Modulation → List ℚ
  | .qam64 => [4.87, 11.47, 22.82]
  | .qam256 => [4.87, 7.87, 10.87]

/-- `EFF_2_MCS`. -/
def eff2Mcs : Modulation → List ℚ
  | .qam64 =>
    [0.2344, 0.3066, 0.3770, 0.4902, 0.6016, 0.7402, 0.8770, 1.0273, 1.1758, 1.3262, 1.3281,
      1.4766, 1.6953, 1.9141, 2.1602, 2.4063, 2.5703, 2.5664, 2.7305, 3.0293, 3.3223, 3.6094,
      3.9023, 4.2129, 4.5234, 4.8164, 5.1152, 5.3320, 5.5546]
  | .qam256 =>
    [0.2344, 0.3770, 0.6016, 0.877, 1.1758, 1.4766, 1.6953, 1.9141, 2.1602, 2.4063, 2.5703,
      2.7305, 3.0293, 3.3223, 3.6094, 3.9023, 4.2129, 4.5234, 4.8164, 5.1152, 5.3320, 5.5546,
      5.8906, 6.2266, 6.5703, 6.9141, 7.1602, 7.4063, 7.4063]

/-- `RBG_SIZES`. -/
def rbgSizes : List ℤ := [1, 2, 4, 8, 16]

/-- `get_rbg_sndex`. -/
def getRbgSndex (size : ℤ) : ℕ := (rbgSizes.findIdx? (· == size)).getD 0

/-! ### The layer -/

/-- `phy_enb_config`. -/
structure PhyEnbConfig where
  modulationM : Modulation
  frequency : ℚ
  nScRbg : ℤ
  mimoL : ℤ

/-- `phy_ue_config`. -/
structure PhyUeConfig where
  cqiPeriod : ℤ
  riPeriod : ℤ
  nAntennas : ℤ
  maxSpeed : ℚ

/-- `phy_layer`.  `mcsLookup` is `none` when nothing inside `MCS_SINR` was copied to it. -/
structure PhyLayer where
  tx : Direction
  modulationM : Modulation
  freq : ℚ
  maxSpeed : ℚ
  dopplerF : ℚ
  mimoL : ℤ
  nScRb : ℤ
  nRbRbg : ℤ
  rbgLookupIndex : ℕ
  mcsTables : Bool
  cqiPeriod : ℤ
  riPeriod : ℤ
  maxRi : ℤ
  currentRi : ℤ
  layers : ℤ
  tc : ℚ := 0
  sinrPeriod : ℤ := 0
  mcsLookup : Option (List ℚ) := none
  dbSinrS : ℚ := 0
  cqiV : ℕ → ℤ := fun _ => 0
  mcsV : ℕ → ℤ := fun _ => 0
  effV : ℕ → ℚ := fun _ => 0

/-- What `init_update_rates` and `init_phy_update_rates` compute: the coherence time, and
after how many periods the SINR is renewed. -/
def updateRates (dopplerF : ℚ) (cqiP riP : ℤ) : ℚ × ℤ :=
  if 0 < dopplerF then
    let tc := 0.423 / dopplerF
    let minSinrUpdate := tc / 0.001
    let minUpdate := min cqiP riP
    (tc, if (minUpdate : ℚ) < minSinrUpdate then minUpdate else max 1 ⌊minSinrUpdate⌋)
  else (-1, min cqiP riP)

namespace PhyLayer

/-- `init_update_rates`. -/
def initUpdateRates (p : PhyLayer) (dopplerF : ℚ) (cqiP riP : ℤ) : PhyLayer :=
  { p with
    tc := (updateRates dopplerF cqiP riP).1
    sinrPeriod := (updateRates dopplerF cqiP riP).2 }

/-- The row the constructor copies from `MCS_SINR`, if it is there. -/
def mcsRow (p : PhyLayer) : Option (List ℚ) :=
  ((mcsSinr p.modulationM)[p.rbgLookupIndex]?).bind fun rows =>
    if 0 ≤ p.layers then rows[p.layers.toNat]? else none

/-- The constructor, with what it has of `init_scenario`, `init_phy`, `init_amc` and
`init_rank`. -/
def make (tx : Direction) (mcsTables : Bool) (ue : PhyUeConfig) (enb : PhyEnbConfig) : PhyLayer :=
  let maxSpeed := ue.maxSpeed * 1000 / 3600
  let maxRi := min ue.nAntennas enb.mimoL
  let nRbRbg := enb.nScRbg.tdiv schNReDefault
  let p : PhyLayer :=
    { tx := tx
      modulationM := enb.modulationM
      freq := enb.frequency
      maxSpeed := maxSpeed
      dopplerF := enb.frequency * maxSpeed / lightspeed
      mimoL := enb.mimoL
      nScRb := enb.nScRbg
      nRbRbg := nRbRbg
      rbgLookupIndex := getRbgSndex nRbRbg
      mcsTables := mcsTables
      cqiPeriod := ue.cqiPeriod
      riPeriod := ue.riPeriod
      maxRi := maxRi
      currentRi := maxRi
      layers := maxRi }
  let p := p.initUpdateRates p.dopplerF p.cqiPeriod p.riPeriod
  if mcsTables then { p with mcsLookup := p.mcsRow } else p

/-- `estimate_cqi_from_se`. -/
def estimateCqiFromSe (p : PhyLayer) (se : ℚ) : ℤ :=
  stop (fun e => decide (e ≤ se)) (eff2Cqi p.modulationM).tail

/-- `estimate_mcs_from_se`: the MCS and its efficiency. -/
def estimateMcsFromSe (p : PhyLayer) (se : ℚ) : ℤ × ℚ :=
  let i := stop (fun e => decide (e ≤ se)) (eff2Mcs p.modulationM).tail
  (i, (eff2Mcs p.modulationM).getD i 0)

/-- `estimate_eff_from_mcs`. -/
def estimateEffFromMcs (p : PhyLayer) (index : ℤ) : ℚ :=
  (eff2Mcs p.modulationM).getD index.toNat 0

/-- `get_mcs_index`, on the row in `mcs_lookup`. -/
def mcsIndex (row : List ℚ) (sinr : ℚ) : ℤ :=
  if sinr < row.headD 0 then -1 else stop (fun t => decide (t < sinr)) row.tail

/-- `get_mcs_index`. -/
def getMcsIndex (p : PhyLayer) (sinr : ℚ) : Option ℤ := p.mcsLookup.map (mcsIndex · sinr)

/-- What is found for resource block group `f`. -/
def setChannelQ (p : PhyLayer) (f : ℕ) (cqi mcs : ℤ) (eff : ℚ) : PhyLayer :=
  { p with
    cqiV := Function.update p.cqiV f cqi
    mcsV := Function.update p.mcsV f mcs
    effV := Function.update p.effV f eff }

/-- `channel_q_tables`, with the SINR of the resource block group. -/
def channelQTables (p : PhyLayer) (f : ℕ) (dbSinr : ℚ) : Option PhyLayer :=
  (p.getMcsIndex dbSinr).map fun mcs =>
    if 0 ≤ mcs then
      let eff := p.estimateEffFromMcs mcs
      p.setChannelQ f (p.estimateCqiFromSe eff) mcs eff
    else p.setChannelQ f 0 mcs 0

/-- `channel_q_efficiency`, with what `estimate_eff_from_sinr` makes of the SINR. -/
def channelQEfficiency (p : PhyLayer) (f : ℕ) (efficiency : ℚ) : PhyLayer :=
  let cqi := p.estimateCqiFromSe efficiency
  if 0 < cqi then
    let (mcs, eff) := p.estimateMcsFromSe efficiency
    p.setChannelQ f cqi mcs eff
  else p.setChannelQ f cqi 0 0

/-- `estimate_ri`.  `RI_THRES` has columns for three layers; with more the source reads
past them, which is not modelled. -/
def estimateRi (p : PhyLayer) : PhyLayer :=
  match p.tx with
  | .dl =>
    match ((riThres p.modulationM).take p.maxRi.toNat).findIdx? fun t => decide (p.dbSinrS ≤ t) with
    | some i => { p with currentRi := min (i + 1) p.mimoL }
    | none => p
  | .ul => { p with currentRi := 1 }

/-- A mean SINR comes in and the rank is renewed. -/
def renewRi (p : PhyLayer) (dbSinr : ℚ) : PhyLayer := { p with dbSinrS := dbSinr }.estimateRi

end PhyLayer

/-! ### The UE -/

/-- `ue_full_config`, as far as its physical layers are made from it. -/
structure UePhyConfig where
  speed : ℚ
  speedVar : ℚ
  cqiPeriod : ℤ
  riPeriod : ℤ
  nAntennas : ℤ

/-- `get_phy_config`, with `get_max_speed`. -/
def UePhyConfig.getPhyConfig (c : UePhyConfig) : PhyUeConfig where
  cqiPeriod := c.cqiPeriod
  riPeriod := c.riPeriod
  nAntennas := c.nAntennas
  maxSpeed := c.speed + c.speedVar

/-- The physical layer as `ue` has it. -/
structure UePhy where
  phyDl : PhyLayer
  phyUl : PhyLayer
  phyCqiPeriod : ℤ
  phyRiPeriod : ℤ
  phyFreq : ℚ
  phySpeed : ℚ
  phyDopplerF : ℚ
  phyTc : ℚ := 0
  phySinrPeriod : ℤ := 1

namespace UePhy

/-- The constructor. -/
def make (mcsTables : Bool) (c : UePhyConfig) (enb : PhyEnbConfig) : UePhy where
  phyDl := .make .dl mcsTables c.getPhyConfig enb
  phyUl := .make .ul mcsTables c.getPhyConfig enb
  phyCqiPeriod := c.cqiPeriod
  phyRiPeriod := c.riPeriod
  phyFreq := enb.frequency
  phySpeed := c.getPhyConfig.maxSpeed
  phyDopplerF := enb.frequency * c.getPhyConfig.maxSpeed / lightspeed

/-- `init_phy_update_rates`. -/
def initPhyUpdateRates (u : UePhy) (dopplerF : ℚ) (cqiP riP : ℤ) : UePhy :=
  { u with
    phyTc := (updateRates dopplerF cqiP riP).1
    phySinrPeriod := (updateRates dopplerF cqiP riP).2 }

end UePhy

end NetworkEmulator.Channel
