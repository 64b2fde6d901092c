/-
The fading between the cells of the map.

The four branches of `bilinearInterpolation` are one formula: the line along the columns,
between the lines along the rows, where a line whose two cells coincide is the cell.  What
it computes is the bilinear interpolant at the place moved to the nearest one of the map,
and this has no seams.
-/
import NetworkEmulator.Library.Interpolation
import NetworkEmulator.Model.MapHandler

namespace NetworkEmulator

open Interpolation
open scoped Numerals

namespace SquareMap

section Field

variable {K : Type} [Field K] [LinearOrder K] [IsStrictOrderedRing K] [FloorRing K]

variable (m : SquareMap K)

/-- How many cells the map has on a side. -/
def side : ℕ := m.cellNumber.toNat

/-- The value of the cell in row `j` and column `i`. -/
def value (j i : ℕ) : K := (m.map.getD j []).getD i 0

/-- The fractional index of a coordinate. -/
def place (x : K) : K := x / m.cellSize + m.side / 2

/-- The indices of the cells below and above a coordinate. -/
def cellsAt (x : K) : ℕ × ℕ :=
  ((clampIndex m.side ⌊m.place x⌋).toNat, (clampIndex m.side ⌈m.place x⌉).toNat)

/-- The bilinear interpolant of the map, at a place moved into the map. -/
def fading (x y : K) : K :=
  interpolant m.side (fun j => interpolant m.side (m.value j) (clampPlace m.side (m.place x)))
    (clampPlace m.side (m.place y))

/-- The values of the cells around a position. -/
def valuesAround (x y : K) : List K :=
  [m.value (m.cellsAt y).1 (m.cellsAt x).1, m.value (m.cellsAt y).1 (m.cellsAt x).2,
    m.value (m.cellsAt y).2 (m.cellsAt x).1, m.value (m.cellsAt y).2 (m.cellsAt x).2]

omit [IsStrictOrderedRing K] [FloorRing K] in
theorem side_cast : (m.side : ℤ) = m.cellNumber := Int.toNat_of_nonneg (by linarith [m.cells])

omit [IsStrictOrderedRing K] [FloorRing K] in
theorem one_le_side : 1 ≤ m.side := by
  have hcells := m.cells
  have hside := m.side_cast
  omega

omit [IsStrictOrderedRing K] [FloorRing K] in
/-- A cell inside the map can be read. -/
theorem cell_eq {y x : ℤ} (hy : 0 ≤ y) (hx : 0 ≤ x) (hy' : y.toNat < m.side)
    (hx' : x.toNat < m.side) : m.cell y x = some (m.value y.toNat x.toNat) := by
  have hrows := m.rows
  have hside := m.side_cast
  have hrow : y.toNat < m.map.length := by omega
  have hcol : x.toNat < m.map[y.toNat].length := by
    have hcolumns := m.columns _ (List.getElem_mem hrow)
    omega
  unfold MapHandler.cell value
  rw [if_pos ⟨hy, hx⟩, List.getElem?_eq_getElem hrow, Option.bind_some,
    List.getElem?_eq_getElem hcol, List.getD_eq_getElem _ _ hrow, List.getD_eq_getElem _ _ hcol]

/-- The indices lie around the clamped place. -/
theorem around_cellsAt (x : K) :
    Around m.side (clampPlace m.side (m.place x)) (m.cellsAt x).1 (m.cellsAt x).2 :=
  (around_clamp m.one_le_side (m.place x)).1

/-- An index a cell of the map has. -/
private def Inside (i : ℤ) : Prop := 0 ≤ i ∧ i.toNat < m.side

omit [IsStrictOrderedRing K] [FloorRing K] in
/-- **The four branches are one line of lines**, and they read cells of the map only. -/
private theorem interpolateCells_eq {i i' j j' : ℤ} (hi : m.Inside i) (hi' : m.Inside i')
    (hj : m.Inside j) (hj' : m.Inside j') (u v : K) :
    m.interpolateCells u v i i' j j' = some (line j.toNat j'.toNat
      (fun k => line i.toNat i'.toNat (m.value k) u) v) := by
  have hcell {k l : ℤ} (hk : m.Inside k) (hl : m.Inside l) :
      m.cell k l = some (m.value k.toNat l.toNat) := m.cell_eq hk.1 hl.1 hk.2 hl.2
  have hcast {k : ℤ} (hk : m.Inside k) : ((k.toNat : ℕ) : K) = k := by
    have hint : ((k.toNat : ℤ) : K) = (k : K) := by rw [Int.toNat_of_nonneg hk.1]
    rwa [Int.cast_natCast] at hint
  have hsame {k l : ℤ} (hk : m.Inside k) (hl : m.Inside l) : k.toNat = l.toNat ↔ k = l := by
    have hk0 := hk.1
    have hl0 := hl.1
    omega
  unfold MapHandler.interpolateCells line
  rw [hcell hj hi, hcell hj hi', hcell hj' hi, hcell hj' hi', hcast hi, hcast hi', hcast hj,
    hcast hj']
  simp only [hsame hi hi', hsame hj hj', Option.bind_eq_bind, Option.bind_some]
  by_cases hx : i = i'
  · by_cases hy : j = j'
    · rw [if_pos ⟨hx, hy⟩, if_pos hy, if_pos hx]
    · rw [if_neg fun h => hy h.2, if_pos hx, if_neg hy, if_pos hx, if_pos hx]
  · rw [if_neg fun h => hx h.1, if_neg hx]
    by_cases hy : j = j'
    · rw [if_pos hy, if_pos hy, if_neg hx]
    · rw [if_neg hy, if_neg hy, if_neg hx, if_neg hx]

private theorem inside_cellsAt (x : K) :
    m.Inside (clampIndex m.side ⌊m.place x⌋) ∧ m.Inside (clampIndex m.side ⌈m.place x⌉) := by
  have hlt := (m.around_cellsAt x).lt
  exact ⟨⟨clampIndex_nonneg _ _, hlt.1⟩, ⟨clampIndex_nonneg _ _, hlt.2⟩⟩

/-- **The fading is the bilinear interpolant.** -/
theorem bilinearInterpolation_eq (x y : K) : m.bilinearInterpolation x y = some (m.fading x y) := by
  have hcells : m.map.isEmpty = false := by
    have hrows := m.rows
    have hpos := m.cells
    rw [List.isEmpty_eq_false_iff, ← List.length_pos_iff]
    omega
  obtain ⟨hi, hi'⟩ := m.inside_cellsAt x
  obtain ⟨hj, hj'⟩ := m.inside_cellsAt y
  have hlines := m.interpolateCells_eq hi hi' hj hj' (m.place x) (m.place y)
  rw [line_clamp m.one_le_side] at hlines
  simp only [line_clamp m.one_le_side] at hlines
  unfold MapHandler.bilinearInterpolation
  rw [hcells, if_neg (by decide), ← m.side_cast]
  simp only [Int.cast_natCast]
  exact hlines

/-- Half way between the two cells of the second row. -/
example : ({ map := [[1, 2], [3, 5]], cellSize := 10, cellNumber := 2 } :
    MapHandler ℚ).bilinearInterpolation (-5) 0 = some 4 := by decide +kernel

omit [IsStrictOrderedRing K] in
/-- The values of the cells around are those of the rows around at the columns around. -/
private theorem mem_valuesAround {x y : K} {k l : ℕ}
    (hk : k = (m.cellsAt y).1 ∨ k = (m.cellsAt y).2)
    (hl : l = (m.cellsAt x).1 ∨ l = (m.cellsAt x).2) : m.value k l ∈ m.valuesAround x y := by
  unfold valuesAround
  rcases hk with rfl | rfl <;> rcases hl with rfl | rfl <;> simp

/-- It lies between the smallest and the greatest of the cells around. -/
theorem fading_mem (x y : K) :
    ∃ low ∈ m.valuesAround x y, ∃ high ∈ m.valuesAround x y,
      low ≤ m.fading x y ∧ m.fading x y ≤ high := by
  have hx := m.around_cellsAt x
  have hy := m.around_cellsAt y
  have hfading : m.fading x y = line (m.cellsAt y).1 (m.cellsAt y).2 (fun k =>
      line (m.cellsAt x).1 (m.cellsAt x).2 (m.value k) (clampPlace m.side (m.place x)))
      (clampPlace m.side (m.place y)) := by
    rw [hy.line_eq]
    unfold fading
    congr 1
    funext k
    exact (hx.line_eq (m.value k)).symm
  rw [hfading]
  obtain ⟨k, hk, hlow⟩ := hy.exists_le_line fun k =>
    line (m.cellsAt x).1 (m.cellsAt x).2 (m.value k) (clampPlace m.side (m.place x))
  obtain ⟨l, hl, hlow'⟩ := hx.exists_le_line (m.value k)
  obtain ⟨k', hk', hhigh⟩ := hy.exists_line_le fun k =>
    line (m.cellsAt x).1 (m.cellsAt x).2 (m.value k) (clampPlace m.side (m.place x))
  obtain ⟨l', hl', hhigh'⟩ := hx.exists_line_le (m.value k')
  exact ⟨_, m.mem_valuesAround hk hl, _, m.mem_valuesAround hk' hl',
    hlow'.trans hlow, hhigh.trans hhigh'⟩

omit [FloorRing K] in
/-- At a grid point it is the value of the cell. -/
theorem fading_grid {i j : ℕ} (hi : i < m.side) (hj : j < m.side) {x y : K}
    (hx : m.place x = i) (hy : m.place y = j) : m.fading x y = m.value j i := by
  have hin {k : ℕ} (hk : k < m.side) : clampPlace m.side (k : K) = k := by
    have hcast : (k : K) + 1 ≤ m.side := by exact_mod_cast hk
    unfold clampPlace
    rw [min_eq_left (by linarith), max_eq_right (Nat.cast_nonneg k)]
  unfold fading
  rw [hx, hy, hin hi, hin hj, interpolant_natCast hj, interpolant_natCast hi]

end Field

/-- It does not jump anywhere. -/
theorem continuous_fading (m : SquareMap ℝ) : Continuous fun p : ℝ × ℝ => m.fading p.1 p.2 := by
  have hplace {c : ℝ × ℝ → ℝ} (hc : Continuous c) :
      Continuous fun p => clampPlace m.side (m.place (c p)) := by
    unfold clampPlace place
    exact continuous_const.max (((hc.div_const _).add continuous_const).min continuous_const)
  exact continuous_interpolant (fun j => continuous_interpolant (fun i => continuous_const)
    (hplace continuous_fst)) (hplace continuous_snd)

/-- **The fading lookup is bilinear interpolation.**  For every map and every position it
reads cells of the map only and gives the bilinear interpolant at the clamped fractional
index, which lies between the least and the greatest of the cells around, is the value of the
cell at a grid point, and is continuous on the plane. -/
theorem fading_interpolates (m : SquareMap ℝ) :
    (∀ x y, m.bilinearInterpolation x y = some (m.fading x y)) ∧
      (∀ x y, ∃ low ∈ m.valuesAround x y, ∃ high ∈ m.valuesAround x y,
        low ≤ m.fading x y ∧ m.fading x y ≤ high) ∧
      (∀ i j, i < m.side → j < m.side → ∀ x y, m.place x = i → m.place y = j →
        m.fading x y = m.value j i) ∧
      Continuous fun p : ℝ × ℝ => m.fading p.1 p.2 :=
  ⟨m.bilinearInterpolation_eq, m.fading_mem, fun _ _ hi hj _ _ hx hy => m.fading_grid hi hj hx hy,
    m.continuous_fading⟩

/-- A map of two by two cells, ten units on a side. -/
def twoByTwo : SquareMap ℝ where
  map := [[1, 2], [3, 5]]
  cellSize := 10
  cellNumber := 2
  cells := by decide
  sized := by norm_num
  rows := rfl
  columns := by simp

/-- The grid point in its second row and first column. -/
theorem fading_interpolates_twoByTwo :
    0 < twoByTwo.side ∧ 1 < twoByTwo.side ∧ twoByTwo.fading (-10) 0 = 3 := by
  have hside : twoByTwo.side = 2 := rfl
  have hsize : twoByTwo.cellSize = 10 := rfl
  have hx : twoByTwo.place (-10) = (0 : ℕ) := by norm_num [place, hside, hsize]
  have hy : twoByTwo.place 0 = (1 : ℕ) := by norm_num [place, hside, hsize]
  obtain ⟨-, -, hgrid, -⟩ := fading_interpolates twoByTwo
  refine ⟨by rw [hside]; decide, by rw [hside]; decide, ?_⟩
  exact hgrid 0 1 (by rw [hside]; decide) (by rw [hside]; decide) (-10) 0 hx hy

end SquareMap

end NetworkEmulator
