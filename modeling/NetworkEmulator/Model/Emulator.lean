/-
The simulator with its threads: `src/simulator/simulator.cpp` over `src/mac_layer/mac_layer.cpp`
and `src/ue/ue_handler.cpp`.

Both handlers run their jobs one after the other, or hand them to a pool of their own: the
two grids are the jobs of one pool, the UEs those of the other.  A schedule says how the
threads of a step are interleaved.  What the simulator measures, logs and publishes is left
out.
-/
import NetworkEmulator.Model.Cell
import NetworkEmulator.Model.SharedPool

namespace NetworkEmulator.Emulation

/-- `simulator`: the cell, which of its handlers have threads, and their pools. -/
structure Emulator (K H Env In W V : Type) [Neg K] [One K] where
  cell : Cell K H Env In
  threading : Bool
  multithreading : Bool
  macPool : ThreadPool W Direction
  uePool : ThreadPool V ℕ

/-- Which worker goes next, in the round of either pool. -/
structure Schedule (W V : Type) where
  mac : List W := []
  ue : List V := []

/-- What the jobs of `mac_layer` do. -/
def macCode {K H Env In : Type} [Neg K] [One K] [LinearOrder K] [Zero K] [PacketHandler H Env In]
    (fuel : ℕ) (s : Cell K H Env In) : JobCode Direction GridCall (Cell K H Env In) where
  calls := s.gridCalls
  call := Cell.gridCall fuel

/-- What the jobs of `ue_handler` do. -/
def ueCode {K H Env In : Type} [Neg K] [One K] [PacketHandler H Env In] (M : LogMath) (fuel : ℕ) :
    JobCode ℕ UeCall (Cell K H Env In) where
  calls _ := Ue.calls
  call := Cell.ueCall M fuel

namespace Emulator

variable {K H Env In W V : Type} [Neg K] [One K]

/-- The constructor, with what the constructor of `mac_layer` and `ue_handler::init` register. -/
def make (cell : Cell K H Env In) (threading multithreading : Bool) (macIndex ueIndex : ℤ) :
    Emulator K H Env In W V where
  cell := cell
  threading := threading
  multithreading := multithreading
  macPool := (if threading then [.dl, .ul] else []).foldl ThreadPool.doJob (.init macIndex)
  uePool :=
    (if multithreading then List.range cell.ueList.length else []).foldl ThreadPool.doJob
      (.init ueIndex)

variable [DecidableEq W] [DecidableEq V] [LinearOrder K] [Zero K] [PacketHandler H Env In]

/-- The pool of `mac_layer`, over the cell. -/
def macShared (e : Emulator K H Env In W V) :
    SharedPool W Direction GridCall (Cell K H Env In) where
  pool := e.macPool
  shared := e.cell

/-- The pool of `ue_handler`, over the cell. -/
def ueShared (e : Emulator K H Env In W V) : SharedPool V ℕ UeCall (Cell K H Env In) where
  pool := e.uePool
  shared := e.cell

/-- `mac_layer::step`. -/
def macStep (fuel : ℕ) (e : Emulator K H Env In W V) (schedule : List W) :
    Option (Emulator K H Env In W V) :=
  if e.threading then
    (e.macShared.round (macCode fuel e.cell) schedule).map fun s =>
      { e with macPool := s.pool, cell := s.shared }
  else (e.cell.macStep fuel).map fun cell => { e with cell := cell }

/-- `ue_handler::step`. -/
def uesStep (M : LogMath) (fuel : ℕ) (e : Emulator K H Env In W V) (t : ℚ) (schedule : List V) :
    Option (Emulator K H Env In W V) :=
  let e := { e with cell := e.cell.addCurrentT t }
  if e.multithreading then
    (e.ueShared.round (ueCode M fuel) schedule).map fun s =>
      { e with uePool := s.pool, cell := s.shared }
  else (e.cell.uesStep M fuel).map fun cell => { e with cell := cell }

/-- `step`. -/
def step (M : LogMath) (fuel : ℕ) (e : Emulator K H Env In W V) (x : ℚ × Schedule W V) :
    Option (Emulator K H Env In W V) :=
  (e.macStep fuel x.2.mac).bind fun e => e.uesStep M fuel x.1 x.2.ue

/-- A run: the times of the steps, and how the threads of each are scheduled. -/
def exec (M : LogMath) (fuel : ℕ) (e : Emulator K H Env In W V)
    (xs : List (ℚ × Schedule W V)) : Option (Emulator K H Env In W V) :=
  Runs.runAll (step M fuel) e xs

end Emulator

end NetworkEmulator.Emulation
