/-
The timer of `include/timer/timer.h`, which drives the simulator.

`int` and `unsigned int` are words of 32 bits, with the arithmetic and the comparisons of
words; a duration is a rational, and its product with `S2US` is rounded to a `float`.  A tick
is one turn of the loop of `ticker` or `ticker_inf`, and comes with the microseconds the clock
has counted since `start`.  How long the thread sleeps shows only in the next reading of the
clock, so it is left out, with `period`; so is `stop`, which ends the loop at any time.

`seen` is a history variable: the arguments of the calls of `func`, in order.
-/
import NetworkEmulator.Library.Rounding
import NetworkEmulator.Library.Runs

namespace NetworkEmulator

open Rounding

/-- `(int)` of a real number, which is undefined when the truncated value is out of range. -/
def intOfReal (x : ℚ) : Option (BitVec 32) :=
  let n := if 0 ≤ x then ⌊x⌋ else ⌈x⌉
  if -2 ^ 31 ≤ n ∧ n < 2 ^ 31 then some (BitVec.ofInt 32 n) else none

/-- `timer`. -/
structure Timer where
  doWait : Bool
  goal : BitVec 32
  count : BitVec 32 := 0
  currentTs : BitVec 32 := 0
  previousTs : BitVec 32 := 0
  seen : List (BitVec 32) := []
  deriving DecidableEq, Repr

namespace Timer

/-- `S2US * _goal`. -/
def goalUs (duration : ℚ) : ℚ := binary32.round (1000000 * duration)

/-- The constructor, with the period in milliseconds and the duration in seconds. -/
def create (period duration : ℚ) : Option Timer :=
  (intOfReal (goalUs duration)).map fun goal => { doWait := 0 < period, goal := goal }

/-- `get_current_ts`. -/
def getCurrentTs (elapsed : ℕ) : BitVec 32 := BitVec.ofNat 32 elapsed

/-- One turn of the loop. -/
def tick (s : Timer) (elapsed : ℕ) : Timer :=
  if s.doWait then
    let current := getCurrentTs elapsed
    { s with currentTs := current, seen := s.seen ++ [current], previousTs := current
             count := s.count + 1 }
  else
    { s with seen := s.seen ++ [s.count * 1000], previousTs := s.count * 1000
             count := s.count + 1 }

/-- Whether the loop goes on: `start` runs `ticker_inf` when the goal is negative. -/
def goesOn (s : Timer) : Bool :=
  if s.goal.slt 0 then true else s.previousTs.ult s.goal

/-- A turn of the loop, when it goes on. -/
def step (s : Timer) (elapsed : ℕ) : Option Timer :=
  if s.goesOn then some (s.tick elapsed) else none

/-- The loop, over the readings of the clock. -/
def exec (s : Timer) (elapsed : List ℕ) : Option Timer := Runs.runAll step s elapsed

end Timer

/-- The time `simulator::step` makes of its argument. -/
def stepTime (ts : BitVec 32) : ℚ := binary64.round (ts.toNat * binary64.round 0.000001)

end NetworkEmulator
