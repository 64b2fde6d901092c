/-
The map of the shadow fading, `src/map/map_handler.cpp`.

`bilinearInterpolation` looks a position up between the cells of a square map whose middle
is the origin.  A read of a cell that the map does not have is `none` here.  Positions and
values are of any field with a floor, so that the lookup can be run on rationals and
reasoned about on the reals.
-/
import Mathlib
import NetworkEmulator.Library.Numerals

namespace NetworkEmulator

open scoped Numerals

/-- `MapHandler`. -/
structure MapHandler (K : Type) where
  map : List (List K)
  cellSize : K
  cellNumber : ℤ

/-- A map of `cellNumber` by `cellNumber` cells, which have a size. -/
structure SquareMap (K : Type) [Zero K] [LT K] extends MapHandler K where
  cells : 1 ≤ cellNumber
  sized : 0 < cellSize
  rows : (map.length : ℤ) = cellNumber
  columns : ∀ row ∈ map, (row.length : ℤ) = cellNumber

namespace MapHandler

variable {K : Type}

/-- `map[y][x]`, where there is such a cell. -/
def cell (m : MapHandler K) (y x : ℤ) : Option K :=
  if 0 ≤ y ∧ 0 ≤ x then m.map[y.toNat]?.bind fun row => row[x.toNat]? else none

variable [Field K]

/-- The end of `bilinearInterpolation`, once the cells around the position are known. -/
def interpolateCells (m : MapHandler K) (xIndex yIndex : K) (x0 x1 y0 y1 : ℤ) : Option K :=
  if x0 = x1 ∧ y0 = y1 then m.cell y0 x0
  else if x0 = x1 then do
    let a ← m.cell y0 x0
    let b ← m.cell y1 x0
    some ((y1 - yIndex) * a + (yIndex - y0) * b)
  else if y0 = y1 then do
    let a ← m.cell y0 x0
    let b ← m.cell y0 x1
    some ((x1 - xIndex) * a + (xIndex - x0) * b)
  else do
    let q11 ← m.cell y0 x0
    let q21 ← m.cell y0 x1
    let q12 ← m.cell y1 x0
    let q22 ← m.cell y1 x1
    let r1 := (x1 - xIndex) * q11 + (xIndex - x0) * q21
    let r2 := (x1 - xIndex) * q12 + (xIndex - x0) * q22
    some ((y1 - yIndex) * r1 + (yIndex - y0) * r2)

variable [LinearOrder K] [FloorRing K]

/-- `bilinearInterpolation`. -/
def bilinearInterpolation (m : MapHandler K) (x y : K) : Option K :=
  if m.map.isEmpty then some 0
  else
    let height := m.cellNumber
    let width := height
    let xIndex := x / m.cellSize + width / 2
    let yIndex := y / m.cellSize + height / 2
    let x0 := max 0 (min ⌊xIndex⌋ (width - 1))
    let x1 := max 0 (min ⌈xIndex⌉ (width - 1))
    let y0 := max 0 (min ⌊yIndex⌋ (height - 1))
    let y1 := max 0 (min ⌈yIndex⌉ (height - 1))
    m.interpolateCells xIndex yIndex x0 x1 y0 y1

/-- `getMacroFadingValue`. -/
def getMacroFadingValue (m : MapHandler K) (x y : K) : Option K := m.bilinearInterpolation x y

end MapHandler

end NetworkEmulator
