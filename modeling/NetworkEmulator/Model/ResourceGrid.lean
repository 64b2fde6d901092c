/-
The resource grid of `src/mac_layer/resource_grid.cpp`, as its constructor lays it out.

A grid belongs to one direction of transmission.  Its constructor derives how many
resource blocks fit into the bandwidth, how many of them make a group (RBG), and how
many groups there are; `step` then visits each group of each time slot.  `none` is the
constructor's `exit(-1)`, or its division by zero when `n_re_f` is 0.  The `int`s are
unbounded here; the bandwidth goes through a `float`, and so does its share with FDD, which
for uplink is a product of `double`s.
-/
import NetworkEmulator.Library.Rounding
import NetworkEmulator.Model.Pkts

namespace NetworkEmulator

open Rounding

/-- `TX_DL` and `TX_UL`. -/
inductive Direction where
  | dl
  | ul
  deriving DecidableEq, Repr

/-- `TDD` and `FDD`. -/
inductive Duplexing where
  | tdd
  | fdd
  deriving DecidableEq, Repr

/-- `SCH_DISTRIBUTED_MODE` and `SCH_LOCALIZED_MODE`. -/
inductive SchMode where
  | distributed
  | localized
  deriving DecidableEq, Repr

/-- `mac_config`. -/
structure MacConfig where
  mimoLayers : ℤ := 4
  numerology : ℤ := 2
  nReFreq : ℤ := 12
  nOfdmSyms : ℤ := 14
  bandwidth : ℤ := 75000000
  schedulingMode : ℤ := 1
  schedulingType : ℤ := 0
  schedulingConfig : ℤ := 0
  metricType : ℤ := 5
  duplexingType : ℤ := 1
  ratioDlUl : ℚ := 1 / 2
  deriving DecidableEq, Repr

/-- `grid`, the part its constructor computes. -/
structure Grid where
  tx : Direction
  mimoLayers : ℤ
  numerology : ℕ
  bandwidth : ℤ
  duplexingT : Duplexing
  nScRb : ℤ
  scSpacing : ℤ
  nFreqRb : ℤ
  nOfdmSymbols : ℤ
  schedulingMode : SchMode
  schedulingType : UInt8
  schedulingConfig : UInt8
  nTimeRb : ℤ
  nTimeRbg : ℤ
  nFreqRbRbg : ℤ
  nFreqRbg : ℤ
  nRbTotal : ℤ
  nReTotal : ℤ
  nScRbg : ℤ
  nSymRbg : ℤ
  nLogicalUnits : ℤ
  metricT : ℤ
  maxCapacityBits : ℚ
  deriving DecidableEq, Repr

namespace Grid

/-- `INF` of `mac_definitions.h`. -/
def inf : ℤ := 1000000000

/-- `SCH_N_RB_MIN`. -/
def schNRbMin : ℤ := 20

/-- `SCH_SC_SPACING`, in kHz. -/
def schScSpacing (numerology : ℕ) : ℤ := [15, 30, 60, 120, 250, 480].getD numerology 0

/-- `SCH_N_RB_MAX`. -/
def schNRbMax (_numerology : ℕ) : ℤ := inf

/-- `SCH_RBG_SIZE`: from how many RBs on, below how many, and the RBs of a group. -/
def schRbgSize : ℕ → List (ℤ × ℤ × ℤ)
  | 0 => [(0, 37, 2), (37, 73, 4), (73, 145, 8), (145, inf, 16)]
  | _ => [(0, 37, 4), (37, 73, 8), (73, 145, 16), (145, inf, 16)]

/-- `EFF_2_CQI[1][15]`. -/
def maxEff : ℚ := 74063 / 10000

/-- `check_duplexing_type`; `DUPLEX_DEFAULT` is `FDD`. -/
def checkDuplexingType (d : ℤ) : Duplexing := if d = 0 then .tdd else .fdd

/-- `check_sch_config`, given the number of RBs. -/
def checkSchConfig (nFreqRb : ℤ) (config : ℕ) : ℤ :=
  if config ≠ 0 ∧ config ≠ 1 then 1
  else
    match (schRbgSize config).find? fun r => decide (r.1 ≤ nFreqRb ∧ nFreqRb < r.2.1) with
    | some r => r.2.2
    | none => 1

/-- `check_sch_mode`. -/
def checkSchMode (mode : ℤ) : SchMode := if mode = 0 then .distributed else .localized

/-- `check_numerology`; `SCH_NUMEROLOGY_DEFAULT` is 2. -/
def checkNumerology (n : ℤ) : ℕ := if 5 < n then 2 else if n < 0 then 2 else n.toNat

/-- `assignRFBandwidth`, from a `float` to a `float`. -/
def assignRFBandwidth (bandwidth : ℚ) : ℚ :=
  if bandwidth = 1400000 then 1100000
  else if bandwidth = 3000000 then 2700000
  else if bandwidth = 5000000 then 4500000
  else if bandwidth = 10000000 then 9000000
  else if bandwidth = 15000000 then 13500000
  else if bandwidth = 20000000 then 18000000
  else if bandwidth = 40000000 then 38160000
  else if bandwidth = 50000000 then 47880000
  else if bandwidth = 60000000 then 58320000
  else if bandwidth = 80000000 then 78130000
  else if bandwidth = 100000000 then 98280000
  else binary32.round (binary64.round (bandwidth * binary64.round 0.9))

/-- The bandwidth the constructor gives the direction: with FDD, its share. -/
def directionBandwidth (tx : Direction) (c : MacConfig) : ℤ :=
  let bandwidth := truncToInt (assignRFBandwidth (binary32.round c.bandwidth))
  match checkDuplexingType c.duplexingType, tx with
  | .tdd, _ => bandwidth
  | .fdd, .dl => truncToInt (binary32.round (binary32.round bandwidth * c.ratioDlUl))
  | .fdd, .ul => truncToInt (binary64.round (bandwidth * binary64.round (1 - c.ratioDlUl)))

/-- The constructor. -/
def make (tx : Direction) (c : MacConfig) : Option Grid :=
  let numerology := checkNumerology c.numerology
  let bandwidth := directionBandwidth tx c
  let nScRb := c.nReFreq
  let scSpacing := schScSpacing numerology * 1000
  if scSpacing * nScRb = 0 then none
  else
    let nFreqRb := min (bandwidth.tdiv (scSpacing * nScRb)) (schNRbMax numerology)
    if nFreqRb < schNRbMin then none
    else
      let schedulingMode := checkSchMode c.schedulingMode
      let schedulingType := UInt8.ofInt c.schedulingType
      let schedulingConfig := UInt8.ofInt c.schedulingConfig
      let nTimeRb : ℤ := 2 ^ numerology
      let nTimeRbg := match schedulingMode with
        | .distributed => nTimeRb
        | .localized => 1
      let nFreqRbRbg :=
        if schedulingType = 0 then checkSchConfig nFreqRb schedulingConfig.toNat else 1
      some {
        tx := tx
        mimoLayers := c.mimoLayers
        numerology := numerology
        bandwidth := bandwidth
        duplexingT := checkDuplexingType c.duplexingType
        nScRb := nScRb
        scSpacing := scSpacing
        nFreqRb := nFreqRb
        nOfdmSymbols := c.nOfdmSyms
        schedulingMode := schedulingMode
        schedulingType := schedulingType
        schedulingConfig := schedulingConfig
        nTimeRb := nTimeRb
        nTimeRbg := nTimeRbg
        nFreqRbRbg := nFreqRbRbg
        nFreqRbg := nFreqRb.tdiv nFreqRbRbg
        nRbTotal := nFreqRb * nTimeRb
        nReTotal := match schedulingMode with
          | .distributed => c.nOfdmSyms * nScRb * nFreqRbRbg
          | .localized => c.nOfdmSyms * nScRb * nFreqRbRbg * nTimeRb
        nScRbg := nScRb * nFreqRbRbg
        nSymRbg := c.nOfdmSyms * nTimeRb.tdiv nTimeRbg
        nLogicalUnits := nTimeRb.tdiv nTimeRbg
        metricT := c.metricType
        maxCapacityBits := nFreqRb * nTimeRb * c.nOfdmSyms * nScRb * maxEff }

/-- The time and the frequency index of each RBG that `step` visits, in order. -/
def visits (g : Grid) : List (ℕ × ℕ) :=
  (List.range g.nTimeRbg.toNat).flatMap fun t =>
    (List.range g.nFreqRbg.toNat).map fun f => (t, f)

end Grid

/-- `mac_layer`: one grid for each direction. -/
structure MacLayer where
  gridDl : Grid
  gridUl : Grid

namespace MacLayer

/-- The constructor. -/
def make (c : MacConfig) : Option MacLayer :=
  match Grid.make .dl c, Grid.make .ul c with
  | some gridDl, some gridUl => some ⟨gridDl, gridUl⟩
  | _, _ => none

/-- `get_n_freq_rbg`, which asks the downlink grid. -/
def getNFreqRbg (m : MacLayer) : ℤ := m.gridDl.nFreqRbg

/-- `get_n_sc_rbg`, which asks the downlink grid. -/
def getNScRbg (m : MacLayer) : ℤ := m.gridDl.nScRbg

/-- The grid of a direction. -/
def grid (m : MacLayer) : Direction → Grid
  | .dl => m.gridDl
  | .ul => m.gridUl

end MacLayer

end NetworkEmulator
