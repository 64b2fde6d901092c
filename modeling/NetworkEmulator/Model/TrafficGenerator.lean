/-
The traffic generator of `include/traffic_models/traffic_generator.h`.

A trace is a list of records, a time and a number of bytes each, as `>>` stores them from one
file per direction.  Extracting from a file that is at its end leaves the variables as they
are and makes the stream fail; `reset_file` starts the file over.  Times are `double`s, but
the offset of a pass is a `float`, and so are the amounts and their sums.  `dumb_tp` and
`dumb_t` are never read.

The loop of the source has no bound; `fuel` bounds it here, and running out of it is `none`.
-/
import NetworkEmulator.Library.Rounding
import NetworkEmulator.Model.ResourceGrid

namespace NetworkEmulator

open Rounding

/-- The state of one direction: the records not read yet, `last_t`, `last_tp` and `t_acc`. -/
structure TraceReader where
  file : List (ℚ × ℚ)
  lastT : ℚ := 0
  lastTp : ℚ := 0
  tAcc : ℚ := 0
  deriving DecidableEq, Repr

namespace TraceReader

/-- What is done with a record that was read: the new state and what it adds to the total. -/
def accept (r : TraceReader) (t : ℚ) (record : ℚ × ℚ) (rest : List (ℚ × ℚ)) : TraceReader × ℚ :=
  let r := { r with file := rest, lastT := record.1, lastTp := record.2 }
  if r.lastT ≤ t then ({ r with lastT := binary64.store (r.lastT + r.tAcc) }, r.lastTp) else (r, 0)

/-- The body of the loop, with `trace` the whole file. -/
def body (trace : List (ℚ × ℚ)) (r : TraceReader) (t : ℚ) : TraceReader × ℚ :=
  match r.file with
  | record :: rest => r.accept t record rest
  | [] =>
    let r := { r with tAcc := binary32.store r.lastT, file := trace }
    match r.file with
    | record :: rest => r.accept t record rest
    | [] => (r, 0)

/-- The loop, from the total so far. -/
def loop (trace : List (ℚ × ℚ)) (t : ℚ) : ℕ → TraceReader → ℚ → Option (TraceReader × ℚ)
  | 0, _, _ => none
  | fuel + 1, r, total =>
    if r.lastT ≤ t then
      loop trace t fuel (r.body trace t).1 (binary32.store (total + (r.body trace t).2))
    else some (r, total)

/-- `generate_ul` and `generate_dl`, after the delay. -/
def generate (trace : List (ℚ × ℚ)) (fuel : ℕ) (r : TraceReader) (t : ℚ) :
    Option (TraceReader × ℚ) :=
  (loop trace t fuel r (if r.lastT ≤ t then r.lastTp else 0)).map fun x =>
    (x.1, binary32.store (x.2 * 8))

end TraceReader

/-- `traffic_generator`.  `delay` is what the constructor makes of it. -/
structure TrafficGenerator where
  ulTrace : List (ℚ × ℚ)
  dlTrace : List (ℚ × ℚ)
  delay : ℚ := 0
  ul : TraceReader := { file := ulTrace }
  dl : TraceReader := { file := dlTrace }
  deriving DecidableEq, Repr

namespace TrafficGenerator

/-- `generate_ul`. -/
def generateUl (fuel : ℕ) (g : TrafficGenerator) (t : ℚ) : Option (TrafficGenerator × ℚ) :=
  (g.ul.generate g.ulTrace fuel (binary64.store (t - g.delay))).map fun x =>
    ({ g with ul := x.1 }, x.2)

/-- `generate_dl`. -/
def generateDl (fuel : ℕ) (g : TrafficGenerator) (t : ℚ) : Option (TrafficGenerator × ℚ) :=
  (g.dl.generate g.dlTrace fuel (binary64.store (t - g.delay))).map fun x =>
    ({ g with dl := x.1 }, x.2)

/-- `generate`. -/
def generate (fuel : ℕ) (g : TrafficGenerator) (tx : Direction) (t : ℚ) :
    Option (TrafficGenerator × ℚ) :=
  match tx with
  | .ul => g.generateUl fuel t
  | .dl => g.generateDl fuel t

/-- A sequence of calls in either direction, and what each returns. -/
def calls (fuel : ℕ) : TrafficGenerator → List (Direction × ℚ) →
    Option (TrafficGenerator × List ℚ)
  | g, [] => some (g, [])
  | g, (tx, t) :: rest =>
    (g.generate fuel tx t).bind fun x => (x.1.calls fuel rest).map fun y => (y.1, x.2 :: y.2)

end TrafficGenerator

end NetworkEmulator
