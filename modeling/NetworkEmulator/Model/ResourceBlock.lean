/-
The assignment of resource blocks of `src/mac_layer/resource_block.cpp`, and the steps of the
grid that run it (`grid::step`, `src/mac_layer/resource_grid.cpp`), for one direction.

Of a UE there is what the scheduler asks for: the rates and the metrics of its physical layer
(`phy_layer.cpp`), which are renewed when the CQI is.  What the queues hold and what the
channel allows come from outside: the packets a UE has at each block, the rates, the age of
the oldest packet, the mean throughput, and the symbols of a time slot, which the TDD pattern
decides.

`history` is a history variable: each block that had symbols, with the UEs that had data and
the UE it went to.
-/
import NetworkEmulator.Model.MetricHandler

namespace NetworkEmulator

open scoped Numerals

/-! ### UEs -/

/-- What the channel and the queues of a UE are at a TTI. -/
structure ChannelInput (R : Type) [Zero R] [LE R] where
  oldestT : R
  avgTp : R
  avgTp_nonneg : 0 ≤ avgTp
  currentT : R
  updateCqi : Bool
  tp : ℕ → R

/-- The part of `phy_layer` that the scheduler asks. -/
structure PhyMetrics (R K : Type) [Field R] where
  id : ℤ
  nRbs : ℕ
  metricH : MetricHandler R K
  metricI : MetricInfo R := {}
  currentT : R := 0
  tpV : ℕ → R := fun _ => 0
  metricV : ℕ → K

namespace PhyMetrics

variable {R K : Type} [Field R] [LinearOrder R]

/-- `prepare_metrics`. -/
def prepareMetrics (p : PhyMetrics R K) (oldestT avgTp : R) : PhyMetrics R K :=
  { p with metricI :=
      { p.metricI with
        reqTime := oldestT
        avrgTp := avgTp * 1000000 / 1000
        currentDelay := p.currentT - oldestT } }

/-- `estimate_tp`, with the rate the channel allows. -/
def estimateTp (p : PhyMetrics R K) (f : ℕ) (tp : R) : PhyMetrics R K :=
  { p with tpV := Function.update p.tpV f tp }

/-- `estimate_metric`. -/
def estimateMetric (p : PhyMetrics R K) (f : ℕ) : PhyMetrics R K :=
  let p := { p with metricI := { p.metricI with currentTp := p.tpV f } }
  if p.metricH.isRr then p
  else { p with
    metricV := Function.update p.metricV f (p.metricH.getMetric p.metricI p.currentT f) }

/-- `estimate_channel_state`. -/
def estimateChannelState (p : PhyMetrics R K) (x : ChannelInput R) : PhyMetrics R K :=
  let p := { p with currentT := x.currentT }.prepareMetrics x.oldestT x.avgTp
  if x.updateCqi then
    (List.range p.nRbs).foldl (fun p f => (p.estimateTp f (x.tp f)).estimateMetric f) p
  else p

/-- `get_tp`. -/
def getTp (p : PhyMetrics R K) (f : ℕ) : R := p.tpV f

/-- `get_metric`, and the UE it leaves. -/
def getMetric [Zero K] [One K] (p : PhyMetrics R K) (f nUes : ℕ) : K × PhyMetrics R K :=
  if p.metricH.isRr then
    let (metric, metricH) := p.metricH.getRrMetric f p.id nUes
    (metric, { p with metricH := metricH })
  else (p.metricV f, p)

end PhyMetrics

/-- What the configuration of a UE says of its metric. -/
structure MetricConfig where
  metricType : ℤ
  priority : ℝ
  beta : ℝ
  delayT : ℝ
  delta : ℝ
  nRbs : ℕ

/-- A new UE. -/
noncomputable def PhyMetrics.create (c : MetricConfig) (id : ℕ) : PhyMetrics ℝ EReal where
  id := id
  nRbs := c.nRbs
  metricH := .create c.metricType c.priority c.beta c.delayT c.delta
  metricV := fun _ => 0

/-- `schedule_candidate`. -/
structure ScheduleCandidate (R K : Type) where
  ueIndex : ℤ
  ueId : ℤ
  bitsPerSymbol : R
  metric : K
  hasData : Bool
  deriving DecidableEq, Repr

/-- `get_schedule_candidate` of `ue.cpp`, with whether the queues have packets. -/
def PhyMetrics.getScheduleCandidate {R K : Type} [Field R] [LinearOrder R] [Zero K] [One K]
    (p : PhyMetrics R K) (f nUes ueIndex : ℕ) (hasPkts : Bool) :
    ScheduleCandidate R K × PhyMetrics R K :=
  let (metric, p) := p.getMetric f nUes
  ({ ueIndex := ueIndex, ueId := p.id, bitsPerSymbol := p.getTp f, metric := metric
     hasData := hasPkts && 0 < p.getTp f }, p)

/-! ### Resource blocks -/

/-- `rb`. -/
structure Rb (R K : Type) [Zero R] [Neg K] [One K] where
  f : ℕ
  maxMetric : MaxMetricHandler R K := {}
  lastScheduled : Bool := false
  lastUeIndexV : ℤ := -1
  lastScheduledBitsV : R := 0
  lastEffectiveBitsV : R := 0
  deriving DecidableEq, Repr

namespace Rb

variable {R K : Type} [Field R] [LinearOrder R] [LinearOrder K] [Zero K] [Neg K] [One K]

/-- `check_ue_assignment`, and the block it leaves. -/
def checkUeAssignment (b : Rb R K) : Bool × Rb R K :=
  if b.maxMetric.assigned then
    if b.maxMetric.hasData then (true, b) else (false, { b with maxMetric := b.maxMetric.reset })
  else (false, b)

/-- One candidate of the loop of `estimate_params`. -/
def consider (m : MaxMetricHandler R K) (c : ScheduleCandidate R K) : MaxMetricHandler R K :=
  if c.hasData && m.evaluate c.metric then m.assign c.bitsPerSymbol c.metric c.ueIndex c.ueId
  else m

/-- The candidates of the UEs, and the UEs they leave. -/
def candidates (f : ℕ) (ues : List (PhyMetrics R K)) (hasPkts : ℕ → Bool) :
    List (ScheduleCandidate R K × PhyMetrics R K) :=
  ues.mapIdx fun i u => u.getScheduleCandidate f ues.length i (hasPkts i)

/-- `estimate_params`: the block and the UEs it leaves. -/
def estimateParams (b : Rb R K) (syms : ℕ) (ues : List (PhyMetrics R K)) (hasPkts : ℕ → Bool) :
    Rb R K × List (PhyMetrics R K) :=
  if 0 < syms then
    let cs := candidates b.f ues hasPkts
    ({ b with maxMetric := (cs.map Prod.fst).foldl consider b.maxMetric }, cs.map Prod.snd)
  else (b, ues)

/-- `handle_packet`, with what `ue::handle_pkt` returns for a UE and its bits. -/
def handlePacket (b : Rb R K) (syms : ℕ) (handlePkt : ℤ → R → R) : Rb R K :=
  let b := { b with
    lastScheduled := false, lastUeIndexV := -1, lastScheduledBitsV := 0, lastEffectiveBitsV := 0 }
  let (assigned, b) := b.checkUeAssignment
  if assigned then
    let tp := b.maxMetric.tp
    let effTp := handlePkt b.maxMetric.index (tp * syms)
    { b with
      lastScheduled := true
      lastUeIndexV := b.maxMetric.index
      lastScheduledBitsV := tp * syms
      lastEffectiveBitsV := effTp
      maxMetric := b.maxMetric.reset }
  else { b with maxMetric := b.maxMetric.reset }

end Rb

/-! ### The grid -/

/-- A block that had symbols: which UEs had data, and where it went. -/
structure Decision where
  withData : List Bool
  ueIndex : Option ℤ
  deriving DecidableEq, Repr

/-- `grid`: its UEs and its blocks. -/
structure RbGrid (R K : Type) [Field R] [Neg K] [One K] where
  nTimeRbg : ℕ
  nFreqRbg : ℕ
  ueList : List (PhyMetrics R K)
  rbGrid : ℕ → ℕ → Rb R K
  history : List Decision := []

/-- A new grid, after `init`. -/
noncomputable def RbGrid.create (nTimeRbg nFreqRbg : ℕ) (ues : List MetricConfig) :
    RbGrid ℝ EReal where
  nTimeRbg := nTimeRbg
  nFreqRbg := nFreqRbg
  ueList := ues.mapIdx fun i c => .create c i
  rbGrid := fun _ f => { f := f }

/-- What comes from outside at a step of the grid. -/
structure StepInput (R : Type) where
  syms : ℕ → ℕ
  hasPkts : ℕ → ℕ → ℕ → Bool
  handlePkt : ℤ → R → R

namespace RbGrid

variable {R K : Type} [Field R] [LinearOrder R] [LinearOrder K] [Zero K] [Neg K] [One K]

/-- A block of a step: `estimate_params` and `handle_packet`. -/
def visit (g : RbGrid R K) (t f syms : ℕ) (hasPkts : ℕ → Bool) (handlePkt : ℤ → R → R) :
    RbGrid R K :=
  let b := g.rbGrid t f
  let withData := (Rb.candidates b.f g.ueList hasPkts).map fun c => c.1.hasData
  let (b, ueList) := b.estimateParams syms g.ueList hasPkts
  let b := b.handlePacket syms handlePkt
  { g with
    ueList := ueList
    rbGrid := Function.update g.rbGrid t (Function.update (g.rbGrid t) f b)
    history :=
      if 0 < syms then
        g.history ++ [⟨withData, if b.lastScheduled then some b.lastUeIndexV else none⟩]
      else g.history }

/-- `step`. -/
def step (g : RbGrid R K) (x : StepInput R) : RbGrid R K :=
  (List.range g.nTimeRbg).foldl (fun g t =>
    (List.range g.nFreqRbg).foldl (fun g f =>
      g.visit t f (x.syms t) (x.hasPkts t f) x.handlePkt) g) g

/-- The channel state of the UEs, by their index, before a step. -/
def estimateChannelState (g : RbGrid R K) (x : ℕ → ChannelInput R) : RbGrid R K :=
  { g with ueList := g.ueList.mapIdx fun i u => u.estimateChannelState (x i) }

/-- A TTI. -/
structure Tti (R : Type) [Zero R] [LE R] where
  channel : ℕ → ChannelInput R
  grid : StepInput R

/-- The TTIs of a run. -/
def exec (g : RbGrid R K) (ttis : List (Tti R)) : RbGrid R K :=
  ttis.foldl (fun g x => (g.estimateChannelState x.channel).step x.grid) g

end RbGrid

end NetworkEmulator
