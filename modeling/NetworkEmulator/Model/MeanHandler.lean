/-
The statistics keeper of `include/utils/logging/mean_handler.h`.

`add` feeds the value of the current step into two sums: one since the last `get`
and one since the last `step`.  `step` folds the latter into the running mean.
-/
import NetworkEmulator.Model.Pkts

namespace NetworkEmulator

/-- `BIT2MBIT`. -/
def bit2Mbit : ℚ := 1 / 1000000

/-- `S2MS`. -/
def s2Ms : ℚ := 1000

/-- `mean_handler<float>`. -/
structure MeanHandler where
  value : ℚ := 0
  tValue : ℚ := 0
  totalValue : ℚ := 0
  counter : ℕ := 0
  totalCounter : ℕ := 1
  deriving DecidableEq, Repr

/-- A call of a keeper. -/
inductive MeanCall where
  | add (v : ℚ)
  | step
  | get
  | getTotal
  deriving DecidableEq, Repr

namespace MeanHandler

/-- `mean_handler::add`. -/
def add (m : MeanHandler) (v : ℚ) : MeanHandler :=
  { m with value := m.value + v, tValue := m.tValue + v }

/-- `mean_handler::step`. -/
def step (m : MeanHandler) : MeanHandler :=
  { m with
    counter := m.counter + 1
    totalValue := (m.totalValue * (m.totalCounter - 1) + m.tValue) / m.totalCounter
    tValue := 0
    totalCounter := m.totalCounter + 1 }

/-- `mean_handler::get`: the answer, and the keeper it leaves behind. -/
def get (m : MeanHandler) : ℚ × MeanHandler :=
  let counter := if m.counter = 0 then 1 else m.counter
  (m.value / counter, { m with counter := 0, value := 0 })

/-- `mean_handler::get_total`. -/
def getTotal (m : MeanHandler) : ℚ := m.totalValue

/-- What a call returns, if anything, and the keeper it leaves behind. -/
def call (m : MeanHandler) : MeanCall → Option ℚ × MeanHandler
  | .add v => (none, m.add v)
  | .step => (none, m.step)
  | .get => (some m.get.1, m.get.2)
  | .getTotal => (some m.getTotal, m)

/-- `if(verbosity > 0) mean.add(v)`, the guard every keeper of the PDCP layer has. -/
def addIf (m : MeanHandler) (verbosity : ℤ) (v : ℚ) : MeanHandler :=
  if 0 < verbosity then m.add v else m

/-- `if(verbosity > 0) mean.step()`. -/
def stepIf (m : MeanHandler) (verbosity : ℤ) : MeanHandler :=
  if 0 < verbosity then m.step else m

end MeanHandler

end NetworkEmulator
