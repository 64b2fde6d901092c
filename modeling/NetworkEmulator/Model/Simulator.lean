/-
The PHY layers of the UEs, and how `src/simulator/simulator.cpp` sizes them.

The simulator asks the MAC layer once for the number of RBGs and their subcarriers, and
every UE makes its two PHY layers from the answer.  A PHY layer keeps one entry for
each RBG in its vectors; `none` is an access outside of them.
-/
import NetworkEmulator.Model.ResourceGrid

namespace NetworkEmulator

/-- `phy_enb_config`, the part the geometry and the rate depend on. -/
structure PhyEnbConfig where
  frequency : ℚ := 3500000000
  mimoL : ℤ := 4
  nRbgs : ℤ := 0
  nScRbg : ℤ := 0

/-- `phy_ue_config`, the part the rate depends on. -/
structure PhyUeConfig where
  scalingFactor : ℚ := 1
  nAntennas : ℤ := 1

/-- `phy_layer`, the part that says how many bits an RBG carries. -/
structure PhyLayer where
  tx : Direction
  nScRb : ℤ
  nRbs : ℤ := 0
  overhead : ℚ
  scalingFactor : ℚ
  currentRi : ℤ
  effV : List ℚ := []
  tpV : List ℚ := []
  metricV : List ℚ := []
  mcsV : List ℤ := []

namespace PhyLayer

/-- `get_overhead`.  Its frequency is an `int`. -/
def getOverhead (f : BitVec 32) : Direction → ℚ
  | .dl => if 7000000000 < f.toInt then 18 / 100 else 14 / 100
  | .ul => if 7000000000 < f.toInt then 10 / 100 else 8 / 100

/-- The constructor: `n_sc_rb` is the number of subcarriers of an RBG. -/
def make (tx : Direction) (u : PhyUeConfig) (c : PhyEnbConfig) : PhyLayer where
  tx := tx
  nScRb := c.nScRbg
  overhead := getOverhead (.ofInt 32 (truncToInt c.frequency)) tx
  scalingFactor := u.scalingFactor
  currentRi := min u.nAntennas c.mimoL

/-- `init`: the vectors get their length. -/
def init (p : PhyLayer) (nRbs : ℤ) : PhyLayer :=
  { p with
    nRbs := nRbs
    effV := List.replicate nRbs.toNat 0
    tpV := List.replicate nRbs.toNat 0
    metricV := List.replicate nRbs.toNat 0
    mcsV := List.replicate nRbs.toNat 0 }

/-- `estimate_tp`: the bits one symbol of RBG `f` carries. -/
def estimateTp (p : PhyLayer) (f : ℕ) : Option PhyLayer :=
  match p.effV[f]? with
  | none => none
  | some eff =>
    if f < p.tpV.length then
      some { p with
        tpV := p.tpV.set f (p.currentRi * p.nScRb * eff * (1 - p.overhead) * p.scalingFactor) }
    else none

end PhyLayer

/-- `ue`: its two PHY layers. -/
structure Ue where
  phyDl : PhyLayer
  phyUl : PhyLayer

namespace Ue

/-- The constructor. -/
def make (u : PhyUeConfig) (c : PhyEnbConfig) : Ue where
  phyDl := (PhyLayer.make .dl u c).init c.nRbgs
  phyUl := (PhyLayer.make .ul u c).init c.nRbgs

/-- `phy`. -/
def phy (u : Ue) : Direction → PhyLayer
  | .dl => u.phyDl
  | .ul => u.phyUl

end Ue

/-- What the configuration says of the cell and of each UE. -/
structure SimulatorConfig where
  mac : MacConfig := {}
  phyEnb : PhyEnbConfig := {}
  ues : List PhyUeConfig := []

/-- `simulator`. -/
structure Simulator where
  macL : MacLayer
  ueList : List Ue

/-- The constructor. -/
def Simulator.make (c : SimulatorConfig) : Option Simulator :=
  match MacLayer.make c.mac with
  | none => none
  | some macL =>
    let phyC := { c.phyEnb with nRbgs := macL.getNFreqRbg, nScRbg := macL.getNScRbg }
    some ⟨macL, c.ues.map fun u => Ue.make u phyC⟩

end NetworkEmulator
