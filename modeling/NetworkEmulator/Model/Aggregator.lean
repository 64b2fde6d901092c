/-
The metrics aggregator of `src/utils/monitoring/aggregator.cpp`.

Any thread may add a point; a worker sleeps for a window, swaps the accumulators for empty
ones and writes one line for each series of what it took.  A step is one critical section,
one test of `running`, one line, or the destructor's store to `running`, and the threads
interleave them in any order.  The snapshot is an unordered map, so its series are emitted
in any order.  The values are finite doubles, and sums and averages are rounded as doubles are;
the digits of a number are left out: a line holds the values it prints.  The `int` that counts
the points of a field does not overflow.

`added`, `window` and `closed` are history variables: the points added so far, those added
since the last swap, and those of each window before it.  Nothing in the model reads them
but the record a line leaves of the points it is about.
-/
import NetworkEmulator.Library.Rounding
import NetworkEmulator.Library.Runs

namespace NetworkEmulator

open Rounding

/-! ### Points -/

/-- `field_aggregation`. -/
inductive FieldAggregation where
  | sum
  | mean
  | last
  deriving DecidableEq, Repr

/-- `metric_field`. -/
structure MetricField where
  value : ℚ := 0
  aggregation : FieldAggregation := .mean
  deriving DecidableEq

/-- `metric_point`. -/
structure MetricPoint where
  measurement : String
  tags : Std.ExtTreeMap String String := ∅
  fields : Std.ExtTreeMap String MetricField
  tsNs : ℤ := 0
  deriving DecidableEq

/-- The tags of a point as text. -/
def MetricPoint.tagText (p : MetricPoint) : String :=
  ",".intercalate (p.tags.toList.map fun t => t.1 ++ "=" ++ t.2)

/-- The key `add_point` builds: a series. -/
def MetricPoint.key (p : MetricPoint) : String :=
  if p.tags.isEmpty then p.measurement else p.measurement ++ "|" ++ p.tagText

/-! ### Accumulators -/

/-- `window_accum`.  Its `initialized` is never read. -/
structure WindowAccum where
  aggregation : FieldAggregation := .mean
  sum : ℚ := 0
  count : ℕ := 0
  lastValue : ℚ := 0
  lastTs : ℤ := 0
  deriving DecidableEq

/-- What `add_point` does with one field. -/
def WindowAccum.addField (a : WindowAccum) (field : MetricField) (tsNs : ℤ) : WindowAccum :=
  let a := { a with aggregation := field.aggregation }
  match field.aggregation with
  | .sum => { a with sum := binary64.store (a.sum + field.value), lastTs := tsNs }
  | .mean =>
    { a with sum := binary64.store (a.sum + field.value), count := a.count + 1, lastTs := tsNs }
  | .last => if a.lastTs ≤ tsNs then { a with lastValue := field.value, lastTs := tsNs } else a

/-- The value the worker prints. -/
def WindowAccum.value (a : WindowAccum) : ℚ :=
  match a.aggregation with
  | .sum => a.sum
  | .mean => if a.count ≠ 0 then binary64.quotient a.sum a.count else 0
  | .last => a.lastValue

/-- `series_window`. -/
structure SeriesWindow where
  fields : Std.ExtTreeMap String WindowAccum := ∅
  latestTsNs : ℤ := 0
  deriving DecidableEq

/-- One field of a point goes to its accumulator. -/
def SeriesWindow.addField (series : SeriesWindow) (tsNs : ℤ) (field : String × MetricField) :
    SeriesWindow :=
  { series with
    fields := series.fields.alter field.1 fun a => some ((a.getD {}).addField field.2 tsNs) }

/-- `add_point`, on the series of the point. -/
def SeriesWindow.addPoint (series : SeriesWindow) (p : MetricPoint) : SeriesWindow :=
  let series := if series.latestTsNs < p.tsNs then { series with latestTsNs := p.tsNs } else series
  p.fields.toList.foldl (fun series => series.addField p.tsNs) series

/-- `accum`, one window of series. -/
abbrev Accum := Std.ExtTreeMap String SeriesWindow

/-- `add_point`, on the accumulators. -/
def Accum.addPoint (accum : Accum) (p : MetricPoint) : Accum :=
  accum.alter p.key fun series => some ((series.getD {}).addPoint p)

/-! ### Lines -/

/-- A line: what `emit_cb` is called with. -/
structure Line where
  measurement : String
  tags : String
  fields : List (String × ℚ)
  tsNs : ℤ
  deriving DecidableEq

/-- The part of the key before the first `|`. -/
def keyMeasurement (key : String) : String := String.ofList (key.toList.takeWhile (· ≠ '|'))

/-- The part of the key after the first `|`. -/
def keyTags (key : String) : String := String.ofList ((key.toList.dropWhile (· ≠ '|')).drop 1)

/-- The line of a series; `none` when it has no field.  `now` is the system clock. -/
def SeriesWindow.line (series : SeriesWindow) (key : String) (now : ℤ) : Option Line :=
  if series.fields.isEmpty then none
  else some { measurement := keyMeasurement key
              tags := keyTags key
              fields := series.fields.toList.map fun f => (f.1, f.2.value)
              tsNs := if 0 < series.latestTsNs then series.latestTsNs else now }

/-! ### The threads -/

/-- A line that was emitted, with its key and the points it is about. -/
structure Report where
  key : String
  line : Line
  points : List MetricPoint
  deriving DecidableEq

/-- Where the worker is. -/
inductive AggregatorPc where
  /-- At the test of `running`. -/
  | testing
  /-- In `sleep_for`, before the swap. -/
  | sleeping
  /-- With the part of the snapshot it has not emitted. -/
  | emitting (snapshot : Accum)
  /-- It has returned. -/
  | exited
  deriving DecidableEq

/-- `aggregator`, with where its worker is. -/
structure Aggregator where
  accum : Accum := ∅
  running : Bool := true
  worker : AggregatorPc := .testing
  emitted : List Report := []
  added : List MetricPoint := []
  window : List MetricPoint := []
  closed : List (List MetricPoint) := []
  deriving DecidableEq

/-- A step of one of the threads. -/
inductive AggregatorStep where
  | addPoint (p : MetricPoint)
  /-- `while(running)`. -/
  | test
  /-- The sleep ends and the worker swaps. -/
  | swap
  /-- The next series of the loop over the snapshot is that of `key`. -/
  | emit (key : String) (now : ℤ)
  /-- The loop over the snapshot ends. -/
  | loopEnd
  /-- The destructor, before it joins. -/
  | shutdown

namespace Aggregator

/-- `add_point`.  A point without fields is ignored. -/
def addPoint (s : Aggregator) (p : MetricPoint) : Aggregator :=
  if p.fields.isEmpty then s
  else { s with accum := s.accum.addPoint p, added := s.added ++ [p], window := s.window ++ [p] }

/-- The swap. -/
def swap (s : Aggregator) : Aggregator :=
  { s with accum := ∅, worker := .emitting s.accum, window := [], closed := s.closed ++ [s.window] }

/-- The points of the window the worker took last. -/
def taken (s : Aggregator) : List MetricPoint := s.closed.getLastD []

/-- The body of the loop over the snapshot. -/
def emit (s : Aggregator) (snapshot : Accum) (key : String) (series : SeriesWindow) (now : ℤ) :
    Aggregator :=
  let s := { s with worker := .emitting (snapshot.erase key) }
  match series.line key now with
  | none => s
  | some line =>
    { s with emitted := s.emitted ++ [⟨key, line, s.taken.filter (·.key = key)⟩] }

/-- A step of the aggregator; `none` when the worker is not there. -/
def step (s : Aggregator) : AggregatorStep → Option Aggregator
  | .addPoint p => some (s.addPoint p)
  | .test =>
    match s.worker with
    | .testing => some { s with worker := if s.running then .sleeping else .exited }
    | _ => none
  | .swap =>
    match s.worker with
    | .sleeping => some s.swap
    | _ => none
  | .emit key now =>
    match s.worker with
    | .emitting snapshot => snapshot[key]?.map fun series => s.emit snapshot key series now
    | _ => none
  | .loopEnd =>
    match s.worker with
    | .emitting snapshot => if snapshot.isEmpty then some { s with worker := .testing } else none
    | _ => none
  | .shutdown => some { s with running := false }

/-- A run of the aggregator after `init`. -/
def exec (s : Aggregator) (as : List AggregatorStep) : Option Aggregator := Runs.runAll step s as

end Aggregator

end NetworkEmulator
