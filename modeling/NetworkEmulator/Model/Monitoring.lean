/-
What the emulator publishes of its grids: the points of `src/mac_layer/mac_layer.cpp`, and
`src/utils/monitoring/monitoring_manager.cpp` between them and the aggregator.

A step of the emulator builds a point for each grid, and the thread that builds them publishes
them one after the other.  The UEs publish points of their own, from any thread, and the
aggregator's worker runs all the while, so a step here is one of these: a step of the
emulator, one `publish`, or one step of the worker.  Monitoring is enabled, and what the UEs
publish comes from outside.
-/
import NetworkEmulator.Model.Aggregator
import NetworkEmulator.Model.Emulator

namespace NetworkEmulator

/-! ### Points -/

/-- `make_metric_field`. -/
def makeMetricField (value : ℚ) (aggregation : FieldAggregation) : MetricField where
  value := value
  aggregation := aggregation

/-- The tag of a direction. -/
def Direction.tag : Direction → String
  | .dl => "dl"
  | .ul => "ul"

/-- The point of a grid in `mac_layer::step`, at the time of the system clock. -/
def macPoint (tx : Direction) (m : GridStepMetrics) (now : ℤ) : MetricPoint where
  measurement := "mac_scheduler"
  tags := .ofList [("tx_dir", tx.tag)]
  fields := .ofList
    [("scheduled_rbg_sum", makeMetricField m.scheduledRbgCount .sum),
      ("empty_rbg_sum", makeMetricField m.emptyRbgCount .sum),
      ("scheduled_ues_sum", makeMetricField m.scheduledUeCount .sum),
      ("active_ues_with_data_mean", makeMetricField m.activeUesWithData .mean),
      ("scheduled_bits_sum", makeMetricField m.scheduledBits .sum),
      ("effective_bits_sum", makeMetricField m.effectiveBits .sum),
      ("grid_capacity_bits_last", makeMetricField m.gridCapacityBits .last),
      ("utilization_ratio_mean", makeMetricField m.utilizationRatio .mean),
      ("scheduling_efficiency_ratio_mean", makeMetricField m.schedulingEfficiencyRatio .mean)]
  tsNs := now

/-- `publish`, before it hands the point on: a point of a slot has the time of the slot. -/
def effectivePoint (slotTs : ℤ) (p : MetricPoint) (now : ℤ) : MetricPoint :=
  let p := if 0 < slotTs then { p with tsNs := slotTs } else p
  if p.tsNs ≤ 0 then { p with tsNs := now } else p

/-- The measurements of the points that `ue.cpp` and `simulator.cpp` build. -/
def otherMeasurements : List String :=
  ["ue_mobility", "ue_pdcp", "ue_l4s", "ue_queue", "ue_phy", "emulator_runtime"]

namespace Emulation

/-! ### The threads -/

/-- The emulator and `monitoring_manager`, with the points that `mac_layer::step` has built and
not yet published. -/
structure Monitored (K H Env In W V : Type) [Neg K] [One K] where
  emulator : Emulator K H Env In W V
  emitMacScheduler : Bool := true
  slotTimestampNs : ℤ := 0
  built : List MetricPoint := []
  aggregator : Aggregator := {}

/-- A step of one of the threads. -/
inductive MonitoredStep (W V : Type) where
  /-- `simulator::step`, with the slot that it sets. -/
  | simulate (x : ℚ × Schedule W V) (slotTs now : ℤ)
  /-- `publish`, of the next point of `mac_layer::step`. -/
  | publishMac (now : ℤ)
  /-- `publish`, of a point of a UE or of `handle_time_log`. -/
  | publishOther (p : MetricPoint) (now : ℤ)
  /-- `clear_slot_timestamp_ns`, at the end of `simulator::step`. -/
  | clearSlot
  /-- The worker of the aggregator, or its destructor. -/
  | worker (a : AggregatorStep)

namespace Monitored

variable {K H Env In W V : Type} [Neg K] [One K]

/-- What `mac_layer::step` builds. -/
def macPoints (s : Monitored K H Env In W V) (cell : Cell K H Env In) (now : ℤ) :
    List MetricPoint :=
  if s.emitMacScheduler then
    [macPoint .dl cell.gridDl.lastStepMetrics now, macPoint .ul cell.gridUl.lastStepMetrics now]
  else []

/-- `publish`. -/
def publish (s : Monitored K H Env In W V) (p : MetricPoint) (now : ℤ) :
    Monitored K H Env In W V :=
  { s with aggregator := s.aggregator.addPoint (effectivePoint s.slotTimestampNs p now) }

variable [DecidableEq W] [DecidableEq V] [LinearOrder K] [Zero K] [PacketHandler H Env In]

/-- A step; `none` when the thread is not there. -/
def step (M : LogMath) (fuel : ℕ) (s : Monitored K H Env In W V) :
    MonitoredStep W V → Option (Monitored K H Env In W V)
  | .simulate x slotTs now =>
    if s.built ≠ [] then none
    else (s.emulator.step M fuel x).map fun e =>
      { s with emulator := e, slotTimestampNs := slotTs, built := s.macPoints e.cell now }
  | .publishMac now =>
    match s.built with
    | [] => none
    | p :: rest => some ({ s with built := rest }.publish p now)
  | .publishOther p now =>
    if p.measurement ∈ otherMeasurements then some (s.publish p now) else none
  | .clearSlot => if s.built = [] then some { s with slotTimestampNs := 0 } else none
  | .worker (.addPoint _) => none
  | .worker a => (s.aggregator.step a).map fun g => { s with aggregator := g }

/-- A run. -/
def exec (M : LogMath) (fuel : ℕ) (s : Monitored K H Env In W V)
    (as : List (MonitoredStep W V)) : Option (Monitored K H Env In W V) :=
  Runs.runAll (step M fuel) s as

end Monitored

end Emulation

end NetworkEmulator
