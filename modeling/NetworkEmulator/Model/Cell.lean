/-
The cell: the UEs of `src/ue/ue.cpp` and the two grids of `src/mac_layer/mac_layer.cpp` over
them, step by step.

The list of UEs is shared.  A step of a grid is the list of calls it makes, on its own
blocks and on the UEs, and a step of a UE is the list of calls it makes on its own parts, so
that the calls of different threads can interleave.

What comes to a UE from outside, packets, traffic, where it is and how the map fades there,
is in `world`, step by step.  What a UE logs and publishes is left out, and so is what its
statistics answer for that.
-/
import NetworkEmulator.Model.ChannelState
import NetworkEmulator.Model.MacGrid
import NetworkEmulator.Model.TddHandler

namespace NetworkEmulator.Emulation

/-! ### The two kinds of UE -/

/-- `SIM_UE`. -/
def simUe : ℤ := 1

/-- `make_packet_handler`. -/
def makePacketHandler (ueType : ℤ) (cfg : PacketHandlerConfig) (seeds : Seeds) :
    SimulatedPacketHandler ⊕ CapturedPacketHandler :=
  if ueType = simUe then
    .inl (.make cfg.pktSize cfg.pdcpC (if cfg.logTraffic then 1 else 0) seeds)
  else .inr (.make cfg.hasInitT cfg.pdcpC (if cfg.logQuality then 1 else 0) seeds)

/-- The PDCP layer of a direction, with its delay budget. -/
def makePdcpLayer (ueType : ℤ) (cfg : PacketHandlerConfig) (verbosity : ℤ) (seeds : Seeds)
    (budgetS : ℚ) : PdcpLayer (SimulatedPacketHandler ⊕ CapturedPacketHandler) :=
  (PdcpLayer.make cfg verbosity seeds (makePacketHandler ueType cfg seeds)).setPktDelayBudget
    budgetS

/-! ### UEs -/

/-- What comes to a UE in one of its steps: the packets captured before `step` and before
`release`, what `ingest` takes, and where the UE is. -/
structure UeInput (Env In : Type) where
  arrivals : Direction → List Env
  late : Direction → List Env
  input : Direction → In
  distance : ℚ
  macroFading : ℚ

/-- `ue`. -/
structure Ue (K H Env In : Type) where
  pdcpDl : PdcpLayer H
  pdcpUl : PdcpLayer H
  phyDl : PhyLayer K
  phyUl : PhyLayer K
  currentT : ℚ := 0
  distance : ℚ
  macroFading : ℚ := 0
  phyO2i : O2i
  phyCqiPeriod : ℤ
  phyRiPeriod : ℤ
  phyDopplerF : ℚ
  phyMacroFading : ℚ := 0
  phySinrPeriod : ℤ := 1
  phyPeriodCounter : ℕ := 0
  world : ℕ → UeInput Env In
  steps : ℕ := 0

/-- A call that `ue::step` makes on the parts of the UE. -/
inductive UeCall where
  | pdcpStep (tx : Direction)
  | pdcpRelease (tx : Direction)
  | updatePos
  | initPhyUpdateRates
  | estimateChannelState (tx : Direction)
  | nextStep
  deriving DecidableEq, Repr

namespace Ue

variable {K H Env In : Type}

/-- `phy`. -/
def phy (u : Ue K H Env In) : Direction → PhyLayer K
  | .dl => u.phyDl
  | .ul => u.phyUl

/-- `pdcp`. -/
def pdcp (u : Ue K H Env In) : Direction → PdcpLayer H
  | .dl => u.pdcpDl
  | .ul => u.pdcpUl

/-- The physical layer of a direction is another. -/
def setPhy (u : Ue K H Env In) (tx : Direction) (p : PhyLayer K) : Ue K H Env In :=
  match tx with
  | .dl => { u with phyDl := p }
  | .ul => { u with phyUl := p }

/-- The PDCP layer of a direction is another. -/
def setPdcp (u : Ue K H Env In) (tx : Direction) (q : PdcpLayer H) : Ue K H Env In :=
  match tx with
  | .dl => { u with pdcpDl := q }
  | .ul => { u with pdcpUl := q }

/-- `has_packets`. -/
def hasPackets (u : Ue K H Env In) (tx : Direction) : Bool := (u.pdcp tx).hasPkts

/-- `get_schedule_candidate`, and the UE it leaves. -/
def getScheduleCandidate [Zero K] [One K] (u : Ue K H Env In) (tx : Direction)
    (f nUes ueIndex : ℕ) : ScheduleCandidate ℚ K × Ue K H Env In :=
  let (candidate, phy) :=
    (u.phy tx).toPhyMetrics.getScheduleCandidate f nUes ueIndex (u.hasPackets tx)
  (candidate, u.setPhy tx { u.phy tx with toPhyMetrics := phy })

variable [PacketHandler H Env In]

/-- `get_avg_tp`. -/
def getAvgTp (u : Ue K H Env In) (tx : Direction) : ℚ :=
  bit2Mbit * (PacketHandler.base (u.pdcp tx).packetH).tpMean.getTotal * s2Ms

/-- `handle_pkt`, and the UE it leaves. -/
def handlePkt (fuel : ℕ) (u : Ue K H Env In) (bits : ℚ) (tx : Direction) (f : ℕ) :
    Option (ℚ × Ue K H Env In) :=
  ((u.pdcp tx).handlePkt fuel bits ((u.phy tx).getMcs f) ((u.phy tx).getSinr f) u.distance).map
    fun (effTp, pdcp) => (effTp, u.setPdcp tx pdcp)

/-- What the world outside does to the packet handler of a direction. -/
def receive (u : Ue K H Env In) (tx : Direction) (es : List Env) : Ue K H Env In :=
  u.setPdcp tx { u.pdcp tx with packetH := es.foldl PacketHandler.receive (u.pdcp tx).packetH }

/-- What a call of `estimate_channel_state` is given in a direction. -/
def channelArgs (u : Ue K H Env In) (tx : Direction) : ChannelArgs where
  distance := u.distance
  macroFading := u.phyMacroFading
  o2i := u.phyO2i
  txDir := tx
  oldestT := (u.pdcp tx).getOldestTimestamp
  avgTp := u.getAvgTp tx
  currentT := u.currentT

/-- `init_phy_update_rates`, and the fading it is time for. -/
def initPhyUpdateRates (u : Ue K H Env In) : Option (Ue K H Env In) :=
  let period := (Channel.updateRates u.phyDopplerF u.phyCqiPeriod u.phyRiPeriod).2
  if period = 0 then none
  else
    some { u with
      phySinrPeriod := period
      phyMacroFading :=
        if (u.phyPeriodCounter : ℤ) % period = 0 then u.macroFading else u.phyMacroFading }

variable (M : LogMath)

/-- One of the calls of `step`. -/
def call (fuel : ℕ) (u : Ue K H Env In) : UeCall → Option (Ue K H Env In)
  | .pdcpStep tx =>
    let u := u.receive tx ((u.world u.steps).arrivals tx)
    some (u.setPdcp tx ((u.pdcp tx).step u.currentT ((u.world u.steps).input tx)))
  | .pdcpRelease tx =>
    let u := u.receive tx ((u.world u.steps).late tx)
    some (u.setPdcp tx (u.pdcp tx).release.1)
  | .updatePos =>
    some { u with
      distance := (u.world u.steps).distance, macroFading := (u.world u.steps).macroFading }
  | .initPhyUpdateRates => u.initPhyUpdateRates
  | .estimateChannelState tx =>
    ((u.phy tx).estimateChannelState M fuel (u.channelArgs tx)).map fun phy => u.setPhy tx phy
  | .nextStep => some { u with phyPeriodCounter := u.phyPeriodCounter + 1, steps := u.steps + 1 }

/-- The calls of `step`, in order. -/
def calls : List UeCall :=
  [.pdcpStep .dl, .pdcpStep .ul, .pdcpRelease .dl, .pdcpRelease .ul, .updatePos,
    .initPhyUpdateRates, .estimateChannelState .dl, .estimateChannelState .ul, .nextStep]

/-- `step`. -/
def step (fuel : ℕ) (u : Ue K H Env In) : Option (Ue K H Env In) :=
  Runs.runAll (call M fuel) u calls

end Ue

/-! ### Grids -/

/-- `grid`, with the variables `syms` and `scheduled_ues` of its `step`. -/
structure CellGrid (K : Type) [Neg K] [One K] where
  nTimeRbg : ℕ
  nFreqRbg : ℕ
  nSymRbg : ℕ
  duplexingT : Duplexing
  tddH : TddHandler
  maxCapacityBits : ℚ
  rbGrid : ℕ → ℕ → Rb ℚ K
  syms : ℕ := 0
  scheduledUes : List Bool := []
  lastStepMetrics : GridStepMetrics := {}

/-- A call that `grid::step` makes, on a UE or on its own. -/
inductive GridCall where
  | start
  | hasPackets (i : ℕ)
  | getSyms
  | estimateParams (t f i : ℕ)
  | handlePacket (t f : ℕ)
  | finish
  deriving DecidableEq, Repr

namespace CellGrid

variable {K : Type} [Neg K] [One K]

/-- The top of `step`. -/
def start (g : CellGrid K) (nUes : ℕ) : CellGrid K :=
  { g with
    lastStepMetrics := { gridCapacityBits := g.maxCapacityBits }
    scheduledUes := List.replicate nUes false }

/-- A UE with packets is counted. -/
def countActive (g : CellGrid K) (hasPackets : Bool) : CellGrid K :=
  if hasPackets then
    { g with lastStepMetrics :=
        { g.lastStepMetrics with activeUesWithData := g.lastStepMetrics.activeUesWithData + 1 } }
  else g

/-- The symbols of the next time slot. -/
def getSyms (g : CellGrid K) : Option (CellGrid K) :=
  match g.duplexingT with
  | .tdd => g.tddH.getSyms.map fun (syms, tddH) => { g with syms := syms, tddH := tddH }
  | .fdd => some { g with syms := g.nSymRbg }

/-- Block `t`, `f` is another. -/
def setRb (g : CellGrid K) (t f : ℕ) (b : Rb ℚ K) : CellGrid K :=
  { g with rbGrid := Function.update g.rbGrid t (Function.update (g.rbGrid t) f b) }

/-- What `step` counts after block `t`, `f`. -/
def count (g : CellGrid K) (t f : ℕ) : CellGrid K :=
  let b := g.rbGrid t f
  if b.lastScheduled then
    let m := { g.lastStepMetrics with
      scheduledRbgCount := g.lastStepMetrics.scheduledRbgCount + 1
      scheduledBits := g.lastStepMetrics.scheduledBits + b.lastScheduledBitsV
      effectiveBits := g.lastStepMetrics.effectiveBits + b.lastEffectiveBitsV }
    if 0 ≤ b.lastUeIndexV ∧ b.lastUeIndexV < g.scheduledUes.length ∧
        g.scheduledUes[b.lastUeIndexV.toNat]? = some false then
      { g with
        lastStepMetrics := { m with scheduledUeCount := m.scheduledUeCount + 1 }
        scheduledUes := g.scheduledUes.set b.lastUeIndexV.toNat true }
    else { g with lastStepMetrics := m }
  else g

/-- The end of `step`. -/
def finish (g : CellGrid K) : CellGrid K :=
  let m := g.lastStepMetrics
  { g with lastStepMetrics :=
      { m with
        emptyRbgCount := g.nFreqRbg * g.nTimeRbg - m.scheduledRbgCount
        utilizationRatio :=
          if 0 < g.nFreqRbg * g.nTimeRbg then m.scheduledRbgCount / (g.nFreqRbg * g.nTimeRbg)
          else m.utilizationRatio
        schedulingEfficiencyRatio :=
          if 0 < m.scheduledBits then m.effectiveBits / m.scheduledBits
          else m.schedulingEfficiencyRatio } }

/-- The calls for block `t`, `f`. -/
def rbCalls (nUes t f : ℕ) : List GridCall :=
  (List.range nUes).map (.estimateParams t f) ++ [.handlePacket t f]

/-- The calls of `step`, in order. -/
def calls (g : CellGrid K) (nUes : ℕ) : List GridCall :=
  .start :: (List.range nUes).map .hasPackets
    ++ ((List.range g.nTimeRbg).flatMap fun t =>
        .getSyms :: (List.range g.nFreqRbg).flatMap fun f => rbCalls nUes t f)
    ++ [.finish]

end CellGrid

/-! ### The cell -/

/-- The two grids of `mac_layer` and the UEs of `ue_handler`. -/
structure Cell (K H Env In : Type) [Neg K] [One K] where
  gridDl : CellGrid K
  gridUl : CellGrid K
  ueList : List (Ue K H Env In)

namespace Cell

variable {K H Env In : Type} [Neg K] [One K]

/-- The grid of a direction. -/
def grid (s : Cell K H Env In) : Direction → CellGrid K
  | .dl => s.gridDl
  | .ul => s.gridUl

/-- The grid of a direction is another. -/
def setGrid (s : Cell K H Env In) (tx : Direction) (g : CellGrid K) : Cell K H Env In :=
  match tx with
  | .dl => { s with gridDl := g }
  | .ul => { s with gridUl := g }

/-- A grid calls UE `i`. -/
def withUe (s : Cell K H Env In) (tx : Direction) (i : ℕ)
    (f : CellGrid K → Ue K H Env In → Option (CellGrid K × Ue K H Env In)) :
    Option (Cell K H Env In) :=
  s.ueList[i]?.bind fun u => (f (s.grid tx) u).map fun (g, u) =>
    { s.setGrid tx g with ueList := s.ueList.set i u }

variable [LinearOrder K] [Zero K]

/-- UE `i` as a candidate for block `t`, `f`, in `rb::estimate_params`. -/
def considerUe (tx : Direction) (nUes t f i : ℕ) (g : CellGrid K) (u : Ue K H Env In) :
    Option (CellGrid K × Ue K H Env In) :=
  if 0 < g.syms then
    let b := g.rbGrid t f
    let (candidate, u) := u.getScheduleCandidate tx b.f nUes i
    some (g.setRb t f { b with maxMetric := Rb.consider b.maxMetric candidate }, u)
  else some (g, u)

variable [PacketHandler H Env In]

/-- `rb::handle_packet` of a block that is assigned, and what `step` counts then. -/
def serveUe (fuel : ℕ) (tx : Direction) (t f : ℕ) (g : CellGrid K) (u : Ue K H Env In) :
    Option (CellGrid K × Ue K H Env In) :=
  let b := g.rbGrid t f
  (u.handlePkt fuel (b.maxMetric.tp * g.syms) tx b.f).map fun (effTp, u) =>
    ((g.setRb t f (b.handlePacket g.syms fun _ _ => effTp)).count t f, u)

/-- A call of `grid::step`. -/
def gridCall (fuel : ℕ) (tx : Direction) (s : Cell K H Env In) :
    GridCall → Option (Cell K H Env In)
  | .start => some (s.setGrid tx ((s.grid tx).start s.ueList.length))
  | .hasPackets i => s.withUe tx i fun g u => some (g.countActive (u.hasPackets tx), u)
  | .getSyms => (s.grid tx).getSyms.map (s.setGrid tx)
  | .estimateParams t f i => s.withUe tx i (considerUe tx s.ueList.length t f i)
  | .handlePacket t f =>
    let g := s.grid tx
    let b := g.rbGrid t f
    if b.checkUeAssignment.1 then s.withUe tx b.maxMetric.index.toNat (serveUe fuel tx t f)
    else some (s.setGrid tx ((g.setRb t f (b.handlePacket g.syms fun _ _ => 0)).count t f))
  | .finish => some (s.setGrid tx (s.grid tx).finish)

/-- The calls of a step of a grid. -/
def gridCalls (s : Cell K H Env In) (tx : Direction) : List GridCall :=
  (s.grid tx).calls s.ueList.length

/-- `grid::step`. -/
def gridStep (fuel : ℕ) (s : Cell K H Env In) (tx : Direction) : Option (Cell K H Env In) :=
  Runs.runAll (gridCall fuel tx) s (s.gridCalls tx)

/-- A call of `ue::step` of UE `i`. -/
def ueCall (M : LogMath) (fuel : ℕ) (i : ℕ) (s : Cell K H Env In) (a : UeCall) :
    Option (Cell K H Env In) :=
  s.ueList[i]?.bind fun u => (u.call M fuel a).map fun u => { s with ueList := s.ueList.set i u }

/-- `ue::step` of UE `i`. -/
def ueStep (M : LogMath) (fuel : ℕ) (s : Cell K H Env In) (i : ℕ) : Option (Cell K H Env In) :=
  Runs.runAll (ueCall M fuel i) s Ue.calls

/-- `add_current_t` of all UEs. -/
def addCurrentT (s : Cell K H Env In) (t : ℚ) : Cell K H Env In :=
  { s with ueList := s.ueList.map fun u => { u with currentT := t } }

/-- `mac_layer::step` without threads. -/
def macStep (fuel : ℕ) (s : Cell K H Env In) : Option (Cell K H Env In) :=
  (s.gridStep fuel .dl).bind fun s => s.gridStep fuel .ul

/-- The UEs of `ue_handler::step` without threads. -/
def uesStep (M : LogMath) (fuel : ℕ) (s : Cell K H Env In) : Option (Cell K H Env In) :=
  Runs.runAll (ueStep M fuel) s (List.range s.ueList.length)

/-- `simulator::step` without threads. -/
def step (M : LogMath) (fuel : ℕ) (s : Cell K H Env In) (t : ℚ) : Option (Cell K H Env In) :=
  (s.macStep fuel).bind fun s => (s.addCurrentT t).uesStep M fuel

/-- A run of the simulator. -/
def exec (M : LogMath) (fuel : ℕ) (s : Cell K H Env In) (ts : List ℚ) :
    Option (Cell K H Env In) := Runs.runAll (step M fuel) s ts

end Cell

end NetworkEmulator.Emulation
