/-
A step of the grid with the UEs behind it: `grid::step` of `src/mac_layer/resource_grid.cpp`
and what it asks of `src/ue/ue.cpp`, for one direction.

`RbGrid` decides which UE a block goes to.  Here what it takes from outside, whether a UE
has packets and what `ue::handle_pkt` answers, comes from the PDCP layers of the UEs, and
the step counts its metrics.  The MCS and the SINR of a UE, its distance and the symbols of
a time slot still come from outside.

`lastServed` is a history variable: the calls of `ue::handle_pkt` in the last step, each
with its block and its UE.  Nothing in the model reads it.
-/
import NetworkEmulator.Model.PdcpLayer
import NetworkEmulator.Model.ResourceBlock

namespace NetworkEmulator

/-- `grid_step_metrics`. -/
structure GridStepMetrics where
  scheduledRbgCount : ℕ := 0
  emptyRbgCount : ℤ := 0
  scheduledUeCount : ℕ := 0
  activeUesWithData : ℕ := 0
  scheduledBits : ℚ := 0
  effectiveBits : ℚ := 0
  gridCapacityBits : ℚ := 0
  utilizationRatio : ℚ := 0
  schedulingEfficiencyRatio : ℚ := 0
  deriving DecidableEq, Repr

/-- A call of `ue::handle_pkt`. -/
structure Served where
  t : ℕ
  f : ℕ
  ueIndex : ℤ
  deriving DecidableEq, Repr

/-- `grid`, with the UEs of its `ue_list`: what the scheduler asks of them, and their PDCP
layers. -/
structure MacGrid (K H : Type) [Neg K] [One K] extends RbGrid ℚ K where
  pdcps : List (PdcpLayer H)
  maxCapacityBits : ℚ
  lastStepMetrics : GridStepMetrics := {}
  lastServed : List Served := []

/-- What comes from outside at a step: the symbols of a time slot and, of each UE, the MCS
and the SINR by frequency and the distance. -/
structure GridInput where
  syms : ℕ → ℕ
  mcs : ℕ → ℕ → ℤ
  sinr : ℕ → ℕ → ℚ
  distance : ℕ → ℚ

/-- What a UE is made from. -/
structure UeConfig (K H : Type) where
  phy : PhyMetrics ℚ K
  packetHandlerC : PacketHandlerConfig := {}
  verbosity : ℤ := 0
  seeds : Seeds := {}
  packetH : H
  pktDelayBudgetS : ℚ := 35 / 100

/-- Its PDCP layer. -/
def UeConfig.pdcp {K H : Type} (c : UeConfig K H) : PdcpLayer H :=
  (PdcpLayer.make c.packetHandlerC c.verbosity c.seeds c.packetH).setPktDelayBudget
    c.pktDelayBudgetS

namespace MacGrid

variable {K H Env In : Type} [Neg K] [One K]

/-- A new grid, after `init`. -/
def create (nTimeRbg nFreqRbg : ℕ) (maxCapacityBits : ℚ) (ues : List (UeConfig K H)) :
    MacGrid K H where
  nTimeRbg := nTimeRbg
  nFreqRbg := nFreqRbg
  ueList := ues.map UeConfig.phy
  rbGrid := fun _ f => { f := f }
  pdcps := ues.map UeConfig.pdcp
  maxCapacityBits := maxCapacityBits

/-- `ue::has_packets`, by the index of the UE. -/
def hasPackets (g : MacGrid K H) (i : ℕ) : Bool := g.pdcps[i]?.any PdcpLayer.hasPkts

/-- The blocks of a step, in order. -/
def rbgs (g : MacGrid K H) : List (ℕ × ℕ) :=
  (List.range g.nTimeRbg).flatMap fun t => (List.range g.nFreqRbg).map fun f => (t, f)

/-- The top of `step`. -/
def startStep (g : MacGrid K H) : MacGrid K H :=
  { g with
    lastStepMetrics :=
      { gridCapacityBits := g.maxCapacityBits
        activeUesWithData := (List.range g.ueList.length).countP g.hasPackets }
    lastServed := [] }

/-- What `step` counts after a block, with the UEs that were scheduled before. -/
def count (g : MacGrid K H) (scheduledUes : List Bool) (b : Rb ℚ K) :
    MacGrid K H × List Bool :=
  if b.lastScheduled then
    let m := { g.lastStepMetrics with
      scheduledRbgCount := g.lastStepMetrics.scheduledRbgCount + 1
      scheduledBits := g.lastStepMetrics.scheduledBits + b.lastScheduledBitsV
      effectiveBits := g.lastStepMetrics.effectiveBits + b.lastEffectiveBitsV }
    if 0 ≤ b.lastUeIndexV ∧ b.lastUeIndexV < scheduledUes.length ∧
        scheduledUes[b.lastUeIndexV.toNat]? = some false then
      ({ g with lastStepMetrics := { m with scheduledUeCount := m.scheduledUeCount + 1 } },
        scheduledUes.set b.lastUeIndexV.toNat true)
    else ({ g with lastStepMetrics := m }, scheduledUes)
  else (g, scheduledUes)

/-- The end of `step`. -/
def finishStep (g : MacGrid K H) : MacGrid K H :=
  let m := g.lastStepMetrics
  { g with lastStepMetrics :=
      { m with
        emptyRbgCount := g.nFreqRbg * g.nTimeRbg - m.scheduledRbgCount
        utilizationRatio :=
          if 0 < g.nFreqRbg * g.nTimeRbg then m.scheduledRbgCount / (g.nFreqRbg * g.nTimeRbg)
          else m.utilizationRatio
        schedulingEfficiencyRatio :=
          if 0 < m.scheduledBits then m.effectiveBits / m.scheduledBits
          else m.schedulingEfficiencyRatio } }

variable [PacketHandler H Env In]

/-- `ue::handle_pkt` of the UE that block `b` is assigned to: its answer, and the PDCP
layers it leaves. -/
def handlePkt (fuel : ℕ) (g : MacGrid K H) (x : GridInput) (b : Rb ℚ K) (syms : ℕ) :
    Option (ℚ × List (PdcpLayer H)) :=
  let i := b.maxMetric.index.toNat
  match g.pdcps[i]? with
  | none => none
  | some u =>
    (u.handlePkt fuel (b.maxMetric.tp * syms) (x.mcs i b.f) (x.sinr i b.f) (x.distance i)).map
      fun (effTp, u) => (effTp, g.pdcps.set i u)

variable [LinearOrder K] [Zero K]

/-- `estimate_params` and `handle_packet` of a block. -/
def serve (fuel : ℕ) (g : MacGrid K H) (x : GridInput) (t f : ℕ) : Option (MacGrid K H) :=
  let b := ((g.rbGrid t f).estimateParams (x.syms t) g.ueList g.hasPackets).1
  if b.checkUeAssignment.1 then
    (g.handlePkt fuel x b (x.syms t)).map fun (effTp, pdcps) =>
      { g with
        toRbGrid := g.toRbGrid.visit t f (x.syms t) g.hasPackets fun _ _ => effTp
        pdcps := pdcps
        lastServed := g.lastServed ++ [⟨t, f, b.maxMetric.index⟩] }
  else some { g with toRbGrid := g.toRbGrid.visit t f (x.syms t) g.hasPackets fun _ _ => 0 }

/-- A block of `step`. -/
def visitRbg (fuel : ℕ) (x : GridInput) (s : MacGrid K H × List Bool) (rbg : ℕ × ℕ) :
    Option (MacGrid K H × List Bool) :=
  (s.1.serve fuel x rbg.1 rbg.2).map fun g => g.count s.2 (g.rbGrid rbg.1 rbg.2)

/-- `step`. -/
def step (fuel : ℕ) (g : MacGrid K H) (x : GridInput) : Option (MacGrid K H) :=
  (Runs.runAll (visitRbg fuel x) (g.startStep, List.replicate g.ueList.length false) g.rbgs).map
    fun s => s.1.finishStep

/-- What happens to a grid and its UEs: an event of the PDCP layer of one UE, new channel
states, a step. -/
inductive GridEvent (Env In : Type) where
  | pdcp (i : ℕ) (e : Event Env In)
  | channel (x : ℕ → ChannelInput ℚ)
  | step (x : GridInput)

/-- One of these. -/
def apply (fuel : ℕ) (g : MacGrid K H) : GridEvent Env In → Option (MacGrid K H)
  | .pdcp i e =>
    match g.pdcps[i]? with
    | none => none
    | some u => (u.apply fuel e).map fun u => { g with pdcps := g.pdcps.set i u }
  | .channel x => some { g with toRbGrid := g.toRbGrid.estimateChannelState x }
  | .step x => g.step fuel x

/-- A run. -/
def exec (fuel : ℕ) (g : MacGrid K H) (es : List (GridEvent Env In)) : Option (MacGrid K H) :=
  Runs.runAll (apply fuel) g es

end MacGrid

end NetworkEmulator
