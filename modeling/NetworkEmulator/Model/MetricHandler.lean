/-
The scheduling metrics of `src/mac_layer/metric_handler.cpp`.

`R` are the finite floats and `K` the values of a metric, among which there may be an
infinity: a division by zero is one.  The formulas of the metrics are over the reals and the
extended reals, for their logarithm, their power and their division; what picks the best UE
and the turns of the round robin only compare and count, over any `R` and `K`.

`metric_f_ptr` is the field `metricF`, a function that has the priority and the beta it reads.
-/
import Mathlib
import NetworkEmulator.Library.Numerals

namespace NetworkEmulator

open scoped Numerals

/-! ### The best metric so far -/

/-- `max_metric_handler`. -/
structure MaxMetricHandler (R K : Type) [Zero R] [Neg K] [One K] where
  assigned : Bool := false
  tp : R := 0
  value : K := -1
  index : ℤ := -1
  id : ℤ := -1
  deriving DecidableEq, Repr

namespace MaxMetricHandler

variable {R K : Type} [Zero R] [Neg K] [One K]

/-- `reset`. -/
def reset (_m : MaxMetricHandler R K) : MaxMetricHandler R K := {}

/-- `assign`. -/
def assign (_m : MaxMetricHandler R K) (tp : R) (value : K) (index id : ℤ) :
    MaxMetricHandler R K where
  assigned := true
  tp := tp
  value := value
  index := index
  id := id

/-- `evaluate`. -/
def evaluate [LE K] [DecidableLE K] (m : MaxMetricHandler R K) (metric : K) : Bool :=
  m.value ≤ metric

/-- `has_data`. -/
def hasData [LT R] [DecidableLT R] (m : MaxMetricHandler R K) : Bool := 0 < m.tp

end MaxMetricHandler

/-! ### Metrics -/

/-- The metrics the code offers. -/
inductive Metric where
  | fifo
  | bet
  | distDelay
  | wDelay
  | maxTp
  | rr
  | pf
  deriving DecidableEq, Repr

/-- `check_metric`. -/
def checkMetric (metric : ℤ) : Metric :=
  if metric = 0 then .fifo else if metric = 1 then .bet else if metric = 2 then .distDelay
  else if metric = 3 then .wDelay else if metric = 4 then .maxTp else if metric = 5 then .rr
  else if metric = 6 then .pf else .rr

/-- `metric_info`. -/
structure MetricInfo (R : Type) [Field R] where
  reqTime : R := 0
  avrgTp : R := 0
  currentTp : R := 0
  currentDelay : R := 0
  delta : R := 1 / 1000
  delayT : R := 1 / 10

/-- `metric_handler`. -/
structure MetricHandler (R K : Type) [Field R] where
  metricT : Metric
  beta : R := 9 / 10
  delayT : R := 1 / 1000
  delta : R := 8 / 10
  priority : R := 1
  metricF : MetricInfo R → R → ℕ → K
  rrIndex : ℤ := 0
  prevF : ℤ := -1

namespace MetricHandler

section Turns

variable {R K : Type} [Field R]

/-- `is_rr`. -/
def isRr (h : MetricHandler R K) : Bool := h.metricT = .rr

/-- `get_metric`. -/
def getMetric (h : MetricHandler R K) (metricI : MetricInfo R) (currentT : R) (f : ℕ) : K :=
  h.metricF metricI currentT f

/-- `get_rr_metric`, and the handler it leaves. -/
def getRrMetric [Zero K] [One K] (h : MetricHandler R K) (f id nUes : ℤ) :
    K × MetricHandler R K :=
  let h := if h.prevF ≠ f then
      { h with rrIndex := if nUes ≤ h.rrIndex + 1 then 0 else h.rrIndex + 1, prevF := f }
    else h
  (if h.rrIndex = id then 1 else 0, h)

end Turns

/-! ### The formulas -/

noncomputable section

/-- `1 / x` of a float, which is infinite when `x` is zero. -/
def recip (x : ℝ) : EReal := if x = 0 then ⊤ else ((1 / x : ℝ) : EReal)

/-- `fifo`. -/
def fifo (priority : ℝ) (i : MetricInfo ℝ) (currentT : ℝ) : EReal :=
  (priority * (currentT - i.reqTime) : ℝ)

/-- `bet`. -/
def bet (priority beta : ℝ) (i : MetricInfo ℝ) : EReal :=
  priority * recip (beta * i.avrgTp + (1 - beta) * i.currentTp)

/-- `dist_delay`. -/
def distDelay (priority : ℝ) (i : MetricInfo ℝ) : EReal :=
  priority * recip (i.delayT - i.currentDelay)

/-- `w_delay`. -/
def wDelay (priority : ℝ) (i : MetricInfo ℝ) : EReal :=
  (-(Real.log i.delta / i.delayT) * priority * i.currentDelay : ℝ)

/-- `max_tp`. -/
def maxTp (priority : ℝ) (i : MetricInfo ℝ) : EReal := (priority * i.currentTp : ℝ)

/-- `rr`. -/
def rr : EReal := 0

/-- `pf`. -/
def pf (priority beta : ℝ) (i : MetricInfo ℝ) : EReal :=
  if i.avrgTp ≠ 0 then (priority * i.currentTp / i.avrgTp ^ beta : ℝ)
  else (priority * i.currentTp : ℝ)

/-- `assign_metric`. -/
def assignMetric (metricT : Metric) (priority beta : ℝ) :
    MetricInfo ℝ → ℝ → ℕ → EReal := fun i currentT _ =>
  match metricT with
  | .fifo => fifo priority i currentT
  | .bet => bet priority beta i
  | .distDelay => distDelay priority i
  | .wDelay => wDelay priority i
  | .maxTp => maxTp priority i
  | .rr => rr
  | .pf => pf priority beta i

/-- The constructor. -/
def create (metricType : ℤ) (priority beta delayT delta : ℝ) : MetricHandler ℝ EReal where
  metricT := checkMetric metricType
  beta := beta
  delayT := delayT
  delta := delta
  priority := priority
  metricF := assignMetric (checkMetric metricType) priority beta

end

end MetricHandler

end NetworkEmulator
